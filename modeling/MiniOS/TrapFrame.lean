import MiniOS.ProcTable
import MiniOS.Errno

/-!
# Traps

The way from user mode into the kernel and back: the words the CPU and `trapentry.S` push, the
`struct frame` that `trap` finds in them, the table of system calls, and the pops of `task_pop_tf`.
The registers of the CPU are those that a frame holds; `fs`, `gs` and the FPU are not in it.
-/

namespace MiniOS

/-! ## Registers and the kernel stack -/

@[ext] structure Regs where
  edi : BitVec 32
  esi : BitVec 32
  ebp : BitVec 32
  ebx : BitVec 32
  edx : BitVec 32
  ecx : BitVec 32
  eax : BitVec 32
  es : BitVec 16
  ds : BitVec 16
  eip : BitVec 32
  cs : BitVec 16
  eflags : BitVec 32
  esp : BitVec 32
  ss : BitVec 16
  deriving DecidableEq

def ring3 (cs : BitVec 16) : Prop := cs &&& 3#16 = 3#16

instance (cs : BitVec 16) : Decidable (ring3 cs) := inferInstanceAs (Decidable (_ = _))

@[ext] structure UserRegs where
  regs : Regs
  user : ring3 regs.cs

abbrev KStack := List (BitVec 32)

def popl : StateT KStack Option (BitVec 32)
  | [] => none
  | w :: st => some (w, st)

/-! ## `trapentry.S` -/

def cpuError (vec : BitVec 8) : Bool := vec = 8 ∨ 10 ≤ vec.toNat ∧ vec.toNat ≤ 14 ∨ vec = 17

def traphandler (vec : BitVec 8) : Bool := 10 ≤ vec.toNat ∧ vec.toNat ≤ 14 ∨ vec = 17

/-- What the CPU pushes when it comes from user mode. `high` is what stands in the upper half of
the word of a segment register. -/
def Regs.interrupt (r : Regs) (vec : BitVec 8) (err : BitVec 32) (high : BitVec 16) : KStack :=
  let st := [r.eip, high ++ r.cs, r.eflags, r.esp, high ++ r.ss]
  if cpuError vec then err :: st else st

def thdlr (vec : BitVec 8) (st : KStack) : KStack :=
  let st := if traphandler vec then st else 0 :: st
  vec.setWidth 32 :: st

def alltraps (r : Regs) (high : BitVec 16) (esp0 : BitVec 32) (st : KStack) : KStack :=
  let st := (high ++ r.ds) :: st
  let st := (high ++ r.es) :: st
  let sp := esp0 - BitVec.ofNat 32 (4 * st.length)
  r.edi :: r.esi :: r.ebp :: sp :: r.ebx :: r.edx :: r.ecx :: r.eax :: st

/-! ## `struct frame` -/

structure Pushregs where
  regEdi : BitVec 32
  regEsi : BitVec 32
  regEbp : BitVec 32
  regOesp : BitVec 32
  regEbx : BitVec 32
  regEdx : BitVec 32
  regEcx : BitVec 32
  regEax : BitVec 32

/-- A word with a segment register holds the padding in its upper half. -/
structure TrapFrame where
  tfRegs : Pushregs
  tfEs : BitVec 32
  tfDs : BitVec 32
  tfTrapno : BitVec 32
  tfErr : BitVec 32
  tfEip : BitVec 32
  tfCs : BitVec 32
  tfEflags : BitVec 32
  tfEsp : BitVec 32
  tfSs : BitVec 32

namespace TrapFrame

def words (f : TrapFrame) : KStack :=
  [f.tfRegs.regEdi, f.tfRegs.regEsi, f.tfRegs.regEbp, f.tfRegs.regOesp, f.tfRegs.regEbx, f.tfRegs.regEdx,
    f.tfRegs.regEcx, f.tfRegs.regEax, f.tfEs, f.tfDs, f.tfTrapno, f.tfErr, f.tfEip, f.tfCs, f.tfEflags, f.tfEsp,
    f.tfSs]

def load : StateT KStack Option TrapFrame := do
  let regs : Pushregs := ⟨← popl, ← popl, ← popl, ← popl, ← popl, ← popl, ← popl, ← popl⟩
  return ⟨regs, ← popl, ← popl, ← popl, ← popl, ← popl, ← popl, ← popl, ← popl, ← popl⟩

def setEax (f : TrapFrame) (r : BitVec 32) : TrapFrame := { f with tfRegs := { f.tfRegs with regEax := r } }

end TrapFrame

/-- `task_pop_tf` on the words of a frame; `none` if it is not one of user mode. -/
def taskPopTf : StateT KStack Option UserRegs := do
  -- popal, which skips the `esp` that pushal has pushed
  let edi ← popl
  let esi ← popl
  let ebp ← popl
  let _ ← popl
  let ebx ← popl
  let edx ← popl
  let ecx ← popl
  let eax ← popl
  let es ← popl
  let ds ← popl
  -- addl $0x8, %esp
  let _ ← popl
  let _ ← popl
  -- iret, which to the ring it comes from would not popl `esp` and `ss`
  let eip ← popl
  let cs ← popl
  let eflags ← popl
  if h : ring3 (cs.setWidth 16) then
    let esp ← popl
    let ss ← popl
    return ⟨⟨edi, esi, ebp, ebx, edx, ecx, eax, es.setWidth 16, ds.setWidth 16, eip, cs.setWidth 16, eflags, esp,
      ss.setWidth 16⟩, h⟩
  else failure

def TrapFrame.regs (f : TrapFrame) : Option UserRegs := taskPopTf.run' f.words

def Regs.entry (r : Regs) (vec : BitVec 8) (err : BitVec 32) (high : BitVec 16) (esp0 : BitVec 32) :
    Option TrapFrame :=
  TrapFrame.load.run' (alltraps r high esp0 (thdlr vec (r.interrupt vec err high)))

/-! ## There and back -/

theorem setWidth_high (high x : BitVec 16) : (high ++ x : BitVec 32).setWidth 16 = x :=
  (BitVec.setWidth_append (x := high) (y := x) (k := 16)).trans (by simp)

def TrapFrame.content (f : TrapFrame) : Regs :=
  ⟨f.tfRegs.regEdi, f.tfRegs.regEsi, f.tfRegs.regEbp, f.tfRegs.regEbx, f.tfRegs.regEdx, f.tfRegs.regEcx,
    f.tfRegs.regEax,
    f.tfEs.setWidth 16, f.tfDs.setWidth 16, f.tfEip, f.tfCs.setWidth 16, f.tfEflags, f.tfEsp, f.tfSs.setWidth 16⟩

theorem TrapFrame.regs_eq (f : TrapFrame) : f.regs = if h :
    ring3 f.content.cs then some ⟨f.content, h⟩ else none := by
  show ((if h : ring3 f.content.cs then _ else _ : StateT KStack Option UserRegs) [f.tfEsp, f.tfSs]).map
    Prod.fst = _
  split <;> rfl

theorem TrapFrame.regs_eq_some {f : TrapFrame} {r : UserRegs} : f.regs = some r ↔ f.content = r.regs := by
  rw [regs_eq]
  split
  next h => exact ⟨fun e => congrArg UserRegs.regs (Option.some.inj e), fun e => congrArg some (UserRegs.ext e)⟩
  next h => exact ⟨fun e => absurd e.symm (Option.some_ne_none _), fun e => absurd (e ▸ r.user) h⟩

def Regs.frame (r : Regs) (vec : BitVec 8) (err : BitVec 32) (high : BitVec 16) (sp : BitVec 32) : TrapFrame :=
  ⟨⟨r.edi, r.esi, r.ebp, sp, r.ebx, r.edx, r.ecx, r.eax⟩, high ++ r.es, high ++ r.ds, vec.setWidth 32, err, r.eip,
    high ++ r.cs, r.eflags, r.esp, high ++ r.ss⟩

theorem Regs.frame_content (r : Regs) (vec : BitVec 8) (err : BitVec 32) (high : BitVec 16) (sp : BitVec 32) :
    (r.frame vec err high sp).content = r := by
  simp only [frame, TrapFrame.content, setWidth_high]

theorem cpuError_eq (vec : BitVec 8) : cpuError vec = traphandler vec ↔ vec ≠ 8 := by
  revert vec
  decide

theorem thdlr_interrupt (r : Regs) {vec : BitVec 8} (hv : vec ≠ 8) (err : BitVec 32) (high : BitVec 16) :
    ∃ err', thdlr vec (r.interrupt vec err high) =
      [vec.setWidth 32, err', r.eip, high ++ r.cs, r.eflags, r.esp, high ++ r.ss] := by
  unfold thdlr Regs.interrupt
  rw [(cpuError_eq vec).mpr hv]
  cases traphandler vec with
  | true => exact ⟨err, rfl⟩
  | false => exact ⟨0, rfl⟩

theorem Regs.entry_eq (r : Regs) {vec : BitVec 8} (hv : vec ≠ 8) (err : BitVec 32) (high : BitVec 16)
    (esp0 : BitVec 32) : ∃ sp err', r.entry vec err high esp0 = some (r.frame vec err' high sp) := by
  obtain ⟨err', h⟩ := thdlr_interrupt r hv err high
  unfold entry
  rw [h]
  exact ⟨_, err', rfl⟩

/-- The entry of the double fault pushes a zero on top of the error code, so that the fields behind
it are one word off. -/
theorem Regs.entry_doubleFault (r : Regs) (err : BitVec 32) (high : BitVec 16) (esp0 : BitVec 32) :
    ∃ f, r.entry 8 err high esp0 = some f ∧ f.tfTrapno = 8 ∧ f.tfEip = err ∧ f.tfCs = r.eip :=
  ⟨_, rfl, rfl, rfl, rfl⟩

end MiniOS

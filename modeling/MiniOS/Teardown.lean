import MiniOS.Vma

/-!
# Tearing an address space down

`delete_all_vma` of `exit.c`, on the areas that a sequence of `create_vma` calls has made.
`kfree` may leave anything in the memory of an area.
-/

namespace MiniOS

structure Freed where
  vma : Nat
  vmStart : Nat
  vmEnd : Nat

namespace Mm

def freed (m : Mm) (vma : Nat) : Freed := ⟨vma, (m.heap vma).vmStart, (m.heap vma).vmEnd⟩

/-- The last argument lists the calls of `delete_vma`; `junk n` is what the memory freed
after `n` calls holds. -/
def deleteAllLoop (junk : Nat → Vma) (fuel : Nat) : (rounds : Nat) → Mm → (vma : Nat) → List Freed →
    Option (Mm × List Freed)
  | 0, _, _, _ => none
  | rounds + 1, m, vma, log =>
    if vma = 0 then some ({ m with mmap := 0 }, log)
    else
      (m.deleteVma vma fuel).bind fun m' =>
        deleteAllLoop junk fuel rounds (m'.set vma (junk log.length)) m'.mmap (m.freed vma :: log)

def deleteAllVma (m : Mm) (junk : Nat → Vma) (rounds fuel : Nat) : Option (Mm × List Freed) :=
  if m.mmap = 0 then some (m, []) else deleteAllLoop junk fuel rounds m m.mmap []

end Mm

/-- An mm and its areas, the first created first: each made by a call for a non-empty range
with memory that held no children. -/
inductive Built : Mm → List Nat → Prop
  | alloc (heap : Nat → Vma) : Built (.allocMm heap) []
  | created {m m' : Mm} {vmas : List Nat} {addr len flags mem fuel : Nat} : Built m vmas → 0 < len →
      addr + len < 2 ^ 32 → mem ≠ 0 → mem ∉ vmas → (m.heap mem).rbLeft = 0 → (m.heap mem).rbRight = 0 →
      m.createVma addr len flags mem fuel = some (mem, m') → Built m' (vmas ++ [mem])
  | failed {m m' : Mm} {vmas : List Nat} {addr len flags mem fuel : Nat} : Built m vmas →
      m.createVma addr len flags mem fuel = some (0, m') → Built m' vmas

structure TornDown (m : Mm) (vmas : List Nat) (m' : Mm) (log : List Freed) : Prop where
  once : log.Perm (vmas.map m.freed)
  mmap : m'.mmap = 0
  tree : m'.rbNode = 0
  count : m'.mmapCount = 0

/-- Of the areas that start above the end of the first one, none starts above the end of the
one created first. -/
def TearsDown (m : Mm) : List Nat → Prop
  | [] => True
  | r :: rest => ∀ s, rest.find? (fun v => (m.heap r).vmEnd < (m.heap v).vmStart) = some s →
      ∀ v ∈ rest, (m.heap r).vmEnd < (m.heap v).vmStart → (m.heap v).vmStart ≤ (m.heap s).vmEnd

end MiniOS

import MiniOS.DcacheSound
import MiniOS.NodeCreate

/-!
# What `create` and `mkdir` leave behind

Neither call looks at the type of the parent or of the last component, so that the operation
table of whatever the walk comes to decides. A failing operation leaves the dentry behind that
was allocated for it.
-/

namespace MiniOS

open Function

/-! ## What is asked of the calls -/

def NodeCall.flags : NodeCall → UInt32
  | .create => lookupParent
  | .mkdir => FsState.mkdirFlags

def NodeCall.agrees (c : NodeCall) (fuel : Nat) (a : NodeArgs) (last : Qstr) : Option Bool :=
  match c with
  | .create => some true
  | .mkdir => (getLast a.mem fuel a.pathname a.len).map fun p => strncmp last.len last.name
    (bytesFrom a.mem p last.len) = 0

namespace FsState

variable (s : FsState) (fs : FsStruct) (fuel : Nat) (a : NodeArgs) (c : NodeCall)

def opOf (c : NodeCall) (a : NodeArgs) (dir : Nat) (s : FsState) : NodeEnd :=
  match c with
  | .create => s.callOp dir fun k => s.inodeCreate k a.dentry a.mode a.inode
  | .mkdir => s.callOp dir fun k => s.inodeMkdir k dir a.dentry a.mode a.inode

/-- The call returns, with an error unless it has made a node with a real name in a directory. -/
def NodeSafe (e : Option NodeEnd) : Prop :=
  ∃ r inserted s', e = some (.returns r inserted s') ∧ (inserted = none → r < 0) ∧
    ∀ i ∈ inserted, sIsdir (s.iMode (s.dInode i.parent)) = true ∧ RealName (s'.cache.dName i.dentry).name

def Works (dir : Nat) : Prop := dir ≠ 0 ∧ (s.iOp dir = .simpleDir ∨ s.iOp dir = .ramfsDir)

/-- The walk fails, the name exists, there is no memory, or the node is one to make. -/
def NodeProper : Prop :=
  ∃ res nd, s.pathParent fs fuel a c.flags = some (res, nd) ∧
    (res < 0 ∨ c.agrees fuel a nd.last = some true ∧ ∃ found, s.lookup nd.dentry nd.last = some found ∧
      (found ≠ 0 ∨ a.dentry = 0 ∨ s.Works (s.dInode nd.dentry) ∧
        (a.inode = 0 ∨ sIsdir (s.iMode (s.dInode nd.dentry)) = true ∧ RealName nd.last.name)))

structure Same (parent : Nat) (s' : FsState) : Prop where
  first : s'.cache.first = s.cache.first
  next : ∀ d ∈ s.live, s'.cache.next d = s.cache.next d
  dName : ∀ d ∈ s.live, s'.cache.dName d = s.cache.dName d
  dCount : s'.dCount parent = s.dCount parent
  iNlink : s'.iNlink (s.dInode parent) = s.iNlink (s.dInode parent)
  live : s'.live = s.live

def FindsNew (s' : FsState) (parent : Nat) (name : Qstr) : Prop :=
  ∃ d, s'.lookup parent name = some d ∧ d ≠ 0 ∧ s'.dInode d = a.inode ∧ a.inode ∉ s.live ∧ a.inode ∈ s'.live

def NoTrace : Prop :=
  ∀ res nd, s.pathParent fs fuel a c.flags = some (res, nd) →
    ∀ r inserted s', s.nodeCall fs fuel a c = some (.returns r inserted s') →
      (r < 0 → s.Same nd.dentry s') ∧ (0 ≤ r → s.FindsNew a s' nd.dentry nd.last)

/-- `mkdir` does not go past the creation, and no operation fails for want of an inode. -/
def NodeClean : Prop :=
  ∀ res nd, s.pathParent fs fuel a c.flags = some (res, nd) → 0 ≤ res →
    c.agrees fuel a nd.last ≠ some false ∧
      (c.agrees fuel a nd.last = some true → s.lookup nd.dentry nd.last = some 0 → a.dentry ≠ 0 →
        s.Works (s.dInode nd.dentry) → a.inode ≠ 0)

structure FreshNodes : Prop where
  dentry : a.dentry ≠ 0 → a.dentry ∉ s.live
  inode : a.inode ≠ 0 → a.inode ∉ s.live

/-! ## The parts of a call -/

variable {s fs fuel a c} {s₁ : FsState} {parent dir : Nat} {last : Qstr} {s' : FsState} {nd : Nameidata}
    {r : Int} {res : Int}

theorem nodeCall_eq : s.nodeCall fs fuel a c = (s.pathParent fs fuel a c.flags).bind fun (res, nd) =>
    if res < 0 then some (.returns res none s)
    else (c.agrees fuel a nd.last).bind fun same =>
      if same then s.addNode nd.dentry nd.last a.dentry (opOf c a (s.dInode nd.dentry))
      else some (.returns res none s) := by
  cases c with
  | create => rfl
  | mkdir =>
    refine Option.bind_congr fun r _ => ?_
    simp only [NodeCall.agrees, Option.bind_map, comp_def, decide_eq_true_eq]
    rfl

theorem nodeCall_fails (hp : s.pathParent fs fuel a c.flags = some (res, nd)) (hres : res < 0) :
    s.nodeCall fs fuel a c = some (.returns res none s) := by
  rw [nodeCall_eq, hp]
  exact if_pos hres

theorem nodeCall_adds (hp : s.pathParent fs fuel a c.flags = some (res, nd)) (hres : ¬ res < 0) :
    s.nodeCall fs fuel a c = (c.agrees fuel a nd.last).bind fun same =>
      if same then s.addNode nd.dentry nd.last a.dentry (opOf c a (s.dInode nd.dentry))
      else some (.returns res none s) := by
  rw [nodeCall_eq, hp]
  exact if_neg hres

structure Allocated (s : FsState) (last : Qstr) (dentry : Nat) (s₁ : FsState) : Prop where
  first : s₁.cache.first = s.cache.first
  name : s₁.cache.dName dentry = last
  iOp : s₁.iOp = s.iOp
  live : s₁.live = insert dentry s.live

theorem dAlloc_some (s : FsState) (parent : Nat) (last : Qstr) {dentry : Nat} (hd : dentry ≠ 0) :
    ∃ s₁, s.dAlloc parent last dentry = some s₁ ∧ s.Allocated last dentry s₁ := by
  rw [dAlloc, if_neg hd, dget]
  split
  · exact ⟨_, rfl, rfl, update_self .., rfl, rfl⟩
  · exact ⟨_, rfl, rfl, update_self .., rfl, rfl⟩

/-! The operation, after `d_alloc`. -/

theorem opOf_broken (hw : ¬ s₁.Works dir) : opOf c a dir s₁ = .missing ∨ opOf c a dir s₁ = .panics := by
  have hcall : ∀ op, s₁.callOp dir op = .missing ∨ s₁.callOp dir op = .panics := by
    intro op
    unfold callOp
    split
    · exact .inl rfl
    · rename_i hdir
      split
      · rename_i hop
        exact absurd ⟨hdir, .inl hop⟩ hw
      · rename_i hop
        exact absurd ⟨hdir, .inr hop⟩ hw
      · exact .inr rfl
      · exact .inl rfl
      · exact .inl rfl
  cases c with
  | create =>
    rw [opOf]
    exact hcall _
  | mkdir =>
    rw [opOf]
    exact hcall _

theorem callOp_works (hw : s₁.Works dir) (op : InodeOps → Int × FsState) :
    ∃ k, s₁.callOp dir op = .returns (op k).1 none (op k).2 := by
  obtain ⟨hdir, hop | hop⟩ := hw
  · exact ⟨.simpleDir, by rw [callOp, if_neg hdir, hop]⟩
  · exact ⟨.ramfsDir, by rw [callOp, if_neg hdir, hop]⟩

theorem opOf_full (hw : s₁.Works dir) (hi : a.inode = 0) : opOf c a dir s₁ = .returns (-enospc) none s₁ := by
  have hnod : ∀ k mode, s₁.mknod k a.dentry mode a.inode = (-enospc, s₁) := fun k mode => if_pos hi
  cases c with
  | create =>
    obtain ⟨k, hk⟩ := callOp_works hw fun k => s₁.inodeCreate k a.dentry a.mode a.inode
    rw [opOf, hk, inodeCreate, hnod]
  | mkdir =>
    obtain ⟨k, hk⟩ := callOp_works hw fun k => s₁.inodeMkdir k dir a.dentry a.mode a.inode
    rw [opOf, hk, inodeMkdir, hnod]
    rfl

theorem opOf_made (hw : s₁.Works dir) (hi : a.inode ≠ 0) :
    ∃ s₂, opOf c a dir s₁ = .returns 0 none s₂ ∧ s₂.cache = s₁.cache ∧ s₂.dInode a.dentry = a.inode ∧
      s₂.live = insert a.inode s₁.live := by
  have hnod : ∀ k mode, ∃ s₂, s₁.mknod k a.dentry mode a.inode = (0, s₂) ∧ s₂.cache = s₁.cache ∧
      s₂.dInode a.dentry = a.inode ∧ s₂.live = insert a.inode s₁.live :=
    fun k mode => ⟨_, if_neg hi, rfl, update_self .., rfl⟩
  cases c with
  | create =>
    obtain ⟨k, hk⟩ := callOp_works hw fun k => s₁.inodeCreate k a.dentry a.mode a.inode
    obtain ⟨s₂, hs₂, hrest⟩ := hnod k (a.mode ||| sIfreg)
    exact ⟨s₂, by rw [opOf, hk, inodeCreate, hs₂], hrest⟩
  | mkdir =>
    obtain ⟨k, hk⟩ := callOp_works hw fun k => s₁.inodeMkdir k dir a.dentry a.mode a.inode
    obtain ⟨s₂, hs₂, hrest⟩ := hnod k (a.mode ||| sIfdir)
    refine ⟨{ s₂ with iNlink := update s₂.iNlink dir (wrap (s₂.iNlink dir + 1)) }, ?_, hrest⟩
    rw [opOf, hk, inodeMkdir, hs₂]
    rfl

/-! All that `addNode` can come to. -/

inductive AddNode (s : FsState) (a : NodeArgs) (parent : Nat) (last : Qstr) (e : NodeEnd) : Prop where
  | found {d : Nat} (found : s.lookup parent last = some d) (ne : d ≠ 0) (ends : e = .returns (-eexist) none s)
  | noDentry (found : s.lookup parent last = some 0) (null : a.dentry = 0) (ends : e = .returns (-enomem) none s)
  | broken (found : s.lookup parent last = some 0) (dentry : a.dentry ≠ 0) (broken : ¬ s.Works (s.dInode parent))
      (ends : e = .missing ∨ e = .panics)
  | full {s₁ : FsState} (found : s.lookup parent last = some 0) (dentry : a.dentry ≠ 0)
      (works : s.Works (s.dInode parent))
      (null : a.inode = 0) (alloc : s.Allocated last a.dentry s₁) (ends : e = .returns (-enospc) none s₁)
  | made {s₂ : FsState} (found : s.lookup parent last = some 0) (dentry : a.dentry ≠ 0)
      (works : s.Works (s.dInode parent))
      (inode : a.inode ≠ 0) (name : s₂.cache.dName a.dentry = last) (dInode : s₂.dInode a.dentry = a.inode)
      (live : a.inode ∈ s₂.live)
      (ends : e = .returns 0 (some ⟨parent, a.dentry⟩) { s₂ with cache := dentryInsert s₂.cache parent a.dentry })

theorem addNode_cases {e : NodeEnd}
    (he : s.addNode parent last a.dentry (opOf c a (s.dInode parent)) = some e) : s.AddNode a parent last e := by
  obtain ⟨d, hfound, he⟩ := Option.map_eq_some_iff.mp he
  by_cases hd : d = 0
  · subst hd
    rw [if_neg (fun hn => hn rfl)] at he
    by_cases hdentry : a.dentry = 0
    · rw [dAlloc, if_pos hdentry] at he
      exact .noDentry hfound hdentry he.symm
    · obtain ⟨s₁, hs₁, halloc⟩ := s.dAlloc_some parent last hdentry
      rw [hs₁] at he
      dsimp only at he
      have hworks : s₁.Works (s.dInode parent) ↔ s.Works (s.dInode parent) := by rw [Works, Works, halloc.iOp]
      by_cases hw : s.Works (s.dInode parent)
      · by_cases hi : a.inode = 0
        · rw [opOf_full (hworks.mpr hw) hi] at he
          exact .full hfound hdentry hw hi halloc he.symm
        · obtain ⟨s₂, hs₂, hcache, hinode, hlive⟩ := opOf_made (c := c) (hworks.mpr hw) hi
          rw [hs₂] at he
          refine .made hfound hdentry hw hi ?_ hinode ?_ he.symm
          · rw [hcache, halloc.name]
          · rw [hlive]
            exact Finset.mem_insert_self ..
      · refine .broken hfound hdentry hw ?_
        obtain hop | hop := opOf_broken (c := c) (a := a) (fun h => hw (hworks.mp h)) <;> rw [hop] at he
        · exact .inl he.symm
        · exact .inr he.symm
  · rw [if_pos hd] at he
    exact .found hfound hd he.symm

/-! ## Only under directories -/

theorem nodeSafe_none : ¬ s.NodeSafe none := by
  rintro ⟨r, i, s', hn, -⟩
  cases hn

theorem nodeProper_iff (hp : s.pathParent fs fuel a c.flags = some (res, nd)) :
    s.NodeProper fs fuel a c ↔
      (res < 0 ∨ c.agrees fuel a nd.last = some true ∧ ∃ found, s.lookup nd.dentry nd.last = some found ∧
        (found ≠ 0 ∨ a.dentry = 0 ∨ s.Works (s.dInode nd.dentry) ∧
          (a.inode = 0 ∨ sIsdir (s.iMode (s.dInode nd.dentry)) = true ∧ RealName nd.last.name))) := by
  constructor
  · rintro ⟨res', nd', hn, hrest⟩
    rw [hp] at hn
    cases hn
    exact hrest
  · exact fun hrest => ⟨res, nd, hp, hrest⟩

theorem nodeSafe_error (hr : r < 0) : s.NodeSafe (some (.returns r none s')) :=
  ⟨r, none, s', rfl, fun _ => hr, nofun⟩

theorem nodeSafe_made {i : Insertion} : s.NodeSafe (some (.returns r (some i) s')) ↔
    sIsdir (s.iMode (s.dInode i.parent)) = true ∧ RealName (s'.cache.dName i.dentry).name := by
  constructor
  · rintro ⟨_, _, _, hn, -, hdir⟩
    cases hn
    exact hdir i rfl
  · intro h
    refine ⟨r, some i, s', rfl, nofun, fun j hj => ?_⟩
    cases hj
    exact h

theorem exists_found {P : Nat → Prop} {d : Nat} (h : s.lookup parent last = some d) :
    (∃ found, s.lookup parent last = some found ∧ P found) ↔ P d := by
  constructor
  · rintro ⟨found, hfound, hP⟩
    rw [h] at hfound
    cases hfound
    exact hP
  · exact fun hP => ⟨d, h, hP⟩

theorem addNode_safe_iff :
    s.NodeSafe (s.addNode parent last a.dentry (opOf c a (s.dInode parent))) ↔
      ∃ found, s.lookup parent last = some found ∧ (found ≠ 0 ∨ a.dentry = 0 ∨ s.Works (s.dInode parent) ∧
        (a.inode = 0 ∨ sIsdir (s.iMode (s.dInode parent)) = true ∧ RealName last.name)) := by
  cases he : s.addNode parent last a.dentry (opOf c a (s.dInode parent)) with
  | none =>
    have hnone : s.lookup parent last = none := Option.map_eq_none_iff.mp he
    refine iff_of_false nodeSafe_none ?_
    rintro ⟨d, hd, -⟩
    rw [hnone] at hd
    cases hd
  | some e =>
    cases addNode_cases he with
    | found hfound ne ends =>
      rw [ends, exists_found hfound]
      exact iff_of_true (nodeSafe_error (by decide)) (.inl ne)
    | noDentry hfound null ends =>
      rw [ends, exists_found hfound]
      exact iff_of_true (nodeSafe_error (by decide)) (.inr (.inl null))
    | broken hfound dentry broken ends =>
      rw [exists_found hfound]
      refine iff_of_false ?_ ?_
      · rintro ⟨r, i, s', hn, -⟩
        obtain rfl | rfl := ends
        · cases hn
        · cases hn
      · rintro (hne | hnull | ⟨hw, -⟩)
        · exact hne rfl
        · exact dentry hnull
        · exact broken hw
    | full hfound dentry works null alloc ends =>
      rw [ends, exists_found hfound]
      exact iff_of_true (nodeSafe_error (by decide)) (.inr (.inr ⟨works, .inl null⟩))
    | made hfound dentry works inode name dInode live ends =>
      rename_i s₂
      have hname : (dentryInsert s₂.cache parent a.dentry).dName a.dentry = last := name
      rw [ends, exists_found hfound, nodeSafe_made, hname]
      constructor
      · exact fun h => .inr (.inr ⟨works, .inr h⟩)
      · rintro (hne | hnull | ⟨-, hnull | hproper⟩)
        · exact absurd rfl hne
        · exact absurd hnull dentry
        · exact absurd hnull inode
        · exact hproper

/-! ## Without trace -/

theorem lookup_inserted {dentry : Nat} (hd : dentry ≠ 0) (hname : s.cache.dName dentry = last) :
    FsState.lookup { s with cache := dentryInsert s.cache parent dentry } parent last = some dentry := by
  have hfirst : (dentryInsert s.cache parent dentry).first (bucket parent last.name) = dentry := by
    rw [← hname]
    exact update_self ..
  have hdName : (dentryInsert s.cache parent dentry).dName dentry = last := hname
  have htest : strncmp last.len last.name last.name = 0 := (strncmp_eq_zero last.noZero).mpr List.prefix_rfl
  rw [lookup, dentryLookup, hfirst, chainFind, if_neg hd, hdName, decide_eq_true htest, if_pos rfl]

theorem Same.refl : s.Same parent s := ⟨rfl, fun _ _ => rfl, fun _ _ => rfl, rfl, rfl, rfl⟩

theorem Same.of_ends {inserted : Option Insertion} {r' : Int} (hr : r' < 0)
    (he : NodeEnd.returns r inserted s' = .returns r' none s) :
    (r < 0 → s.Same parent s') ∧ (0 ≤ r → s.FindsNew a s' parent last) := by
  cases he
  exact ⟨fun _ => .refl, fun hn => absurd hr (not_lt.mpr hn)⟩

/-- A failing operation has left its dentry behind. -/
theorem not_same_of_allocated (h : s.FreshNodes a) (hd : a.dentry ≠ 0) (halloc : s.Allocated last a.dentry s₁) :
    ¬ s.Same parent s₁ := by
  intro hsame
  have hlive : insert a.dentry s.live = s.live := halloc.live.symm.trans hsame.live
  exact h.dentry hd (hlive ▸ Finset.mem_insert_self ..)

theorem addNode_traces (h : s.FreshNodes a) (hfound : s.lookup parent last = some 0) (hd : a.dentry ≠ 0)
    (hw : s.Works (s.dInode parent)) (hi : a.inode = 0) :
    ∃ s₁, s.addNode parent last a.dentry (opOf c a (s.dInode parent)) = some (.returns (-enospc) none s₁) ∧
      ¬ s.Same parent s₁ := by
  obtain ⟨e, he⟩ : ∃ e, s.addNode parent last a.dentry (opOf c a (s.dInode parent)) = some e := by
    rw [addNode, hfound]
    exact ⟨_, rfl⟩
  cases addNode_cases he with
  | found hne ne ends =>
    rw [hfound] at hne
    cases hne
    exact absurd rfl ne
  | noDentry _ null ends => exact absurd null hd
  | broken _ _ broken ends => exact absurd hw broken
  | full _ _ _ null alloc ends => exact ⟨_, he.trans (congrArg some ends), not_same_of_allocated h hd alloc⟩
  | made _ _ _ inode name dInode live ends => exact absurd hi inode

theorem addNode_traceless (h : s.FreshNodes a)
    (hclean : s.lookup parent last = some 0 → a.dentry ≠ 0 → s.Works (s.dInode parent) → a.inode ≠ 0)
    {inserted : Option Insertion}
    (he : s.addNode parent last a.dentry (opOf c a (s.dInode parent)) = some (.returns r inserted s')) :
    (r < 0 → s.Same parent s') ∧ (0 ≤ r → s.FindsNew a s' parent last) := by
  cases addNode_cases he with
  | found found ne ends => exact Same.of_ends (by decide) ends
  | noDentry found null ends => exact Same.of_ends (by decide) ends
  | broken found dentry broken ends =>
    obtain ends | ends := ends
    · cases ends
    · cases ends
  | full found dentry works null alloc ends => exact absurd null (hclean found dentry works)
  | made found dentry works inode name dInode live ends =>
    cases ends
    exact ⟨nofun, fun _ => ⟨_, lookup_inserted dentry name, dentry, dInode, h.inode inode, live⟩⟩

end FsState

/-- Exactly the calls of `NodeProper` make nothing but real names in directories, and end. -/
theorem node_safe_iff (s : FsState) (fs : FsStruct) (fuel : Nat) (a : NodeArgs) (c : NodeCall) :
    s.NodeSafe (s.nodeCall fs fuel a c) ↔ s.NodeProper fs fuel a c := by
  cases hp : s.pathParent fs fuel a c.flags with
  | none =>
    refine iff_of_false ?_ ?_
    · rw [FsState.nodeCall_eq, hp]
      exact FsState.nodeSafe_none
    · rintro ⟨res, nd, hn, -⟩
      rw [hp] at hn
      cases hn
  | some r =>
    obtain ⟨res, nd⟩ := r
    rw [FsState.nodeProper_iff hp]
    by_cases hres : res < 0
    · rw [FsState.nodeCall_fails hp hres]
      exact iff_of_true (FsState.nodeSafe_error hres) (.inl hres)
    · rw [FsState.nodeCall_adds hp hres, or_iff_right hres]
      cases hagrees : c.agrees fuel a nd.last with
      | none => exact iff_of_false FsState.nodeSafe_none fun hn => nomatch hn.1
      | some same =>
        cases same with
        | false =>
          refine iff_of_false ?_ fun hn => nomatch hn.1
          rintro ⟨r, i, s', hn, hneg, -⟩
          cases hn
          exact hres (hneg rfl)
        | true => exact FsState.addNode_safe_iff.trans (and_iff_right rfl).symm

def ttyFs : FsState where
  cache := ⟨fun h => if h = bucket 1 ttyName.name then 3 else 0, fun _ => 0, fun _ => ttyName⟩
  dParent _ := 1
  dInode d := if d = 1 then 2 else if d = 3 then 4 else 0
  dCount _ := 1
  iMode i := if i = 2 then sIfdir else 0
  iOp i := if i = 2 then .simpleDir else .ttyfs
  iNlink _ := 1
  lookupVfsmnt _ _ := 0
  mntRoot _ := 1
  live := {1, 2, 3, 4}

def atRoot : FsStruct := ⟨1, 1, 1, 1⟩

def nodeArgs (pathname : List UInt8) (inode : Nat) : NodeArgs where
  mem p := pathname.getD p 0
  pathname := 0
  len := pathname.length
  mode := 0
  nd := ⟨0, 0, ttyName, 0, .norm⟩
  dentry := 5
  inode := inode

/-- `create(".")` makes a file of that name, and `create("tty/x")` calls the `create` that
`ttyfs_inode_op` does not have. -/
theorem create_dot_tty :
    (∃ s', ttyFs.nodeCall atRoot 9 (nodeArgs [dot] 6) .create = some (.returns 0 (some ⟨1, 5⟩) s') ∧
      (s'.cache.dName 5).name = [dot]) ∧
    ¬ ttyFs.NodeSafe (ttyFs.nodeCall atRoot 9 (nodeArgs [dot] 6) .create) ∧
    ttyFs.nodeCall atRoot 9 (nodeArgs [116, 116, 121, slash, 120] 6) .create = some .missing ∧
    ¬ ttyFs.NodeSafe (ttyFs.nodeCall atRoot 9 (nodeArgs [116, 116, 121, slash, 120] 6) .create) := by
  have hdot : ∃ s', ttyFs.nodeCall atRoot 9 (nodeArgs [dot] 6) .create = some (.returns 0 (some ⟨1, 5⟩) s') ∧
      (s'.cache.dName 5).name = [dot] := ⟨_, rfl, rfl⟩
  have htty : ttyFs.nodeCall atRoot 9 (nodeArgs [116, 116, 121, slash, 120] 6) .create = some .missing := rfl
  refine ⟨hdot, ?_, htty, ?_⟩
  · obtain ⟨s', he, hname⟩ := hdot
    rw [he]
    rintro ⟨r, i, s'', hn, -, hreal⟩
    cases hn
    exact (hreal _ rfl).2.1 hname
  · rw [htty]
    rintro ⟨r, i, s', hn, -⟩
    cases hn

/-- With fresh memory for the nodes, exactly the calls of `NodeClean` leave nothing behind when
they fail and have made the node when they do not. -/
theorem no_trace_iff {s : FsState} {a : NodeArgs} (h : s.FreshNodes a) (fs : FsStruct) (fuel : Nat) (c : NodeCall) :
    s.NoTrace fs fuel a c ↔ s.NodeClean fs fuel a c := by
  constructor
  · intro htrace res nd hp hres
    have hcall := FsState.nodeCall_adds hp (not_lt.mpr hres)
    constructor
    · intro hagrees
      rw [hagrees] at hcall
      obtain ⟨d, -, -, -, hfresh, hlive⟩ := (htrace res nd hp _ _ _ hcall).2 hres
      exact hfresh hlive
    · intro hagrees hfound hd hw hi
      rw [hagrees] at hcall
      obtain ⟨s₁, hs₁, hsame⟩ := FsState.addNode_traces (c := c) h hfound hd hw hi
      exact hsame ((htrace res nd hp _ _ _ (hcall.trans hs₁)).1 (by decide))
  · intro hclean res nd hp r inserted s' he
    by_cases hres : res < 0
    · rw [FsState.nodeCall_fails hp hres] at he
      exact FsState.Same.of_ends hres (Option.some.inj he).symm
    · obtain ⟨hother, hfull⟩ := hclean res nd hp (not_lt.mp hres)
      rw [FsState.nodeCall_adds hp hres] at he
      obtain ⟨same, hagrees, he⟩ := Option.bind_eq_some_iff.mp he
      cases same with
      | false => exact absurd hagrees hother
      | true => exact FsState.addNode_traceless h (hfull hagrees) he

theorem no_trace_iff_tty :
    ttyFs.FreshNodes (nodeArgs [102] 6) ∧ ttyFs.NoTrace atRoot 9 (nodeArgs [102] 6) .create := by
  have hfresh : ttyFs.FreshNodes (nodeArgs [102] 6) := ⟨fun _ => by decide, fun _ => by decide⟩
  exact ⟨hfresh, (no_trace_iff hfresh atRoot 9 .create).mpr fun res nd _ _ => ⟨nofun, fun _ _ _ _ => by decide⟩⟩

/-- Without memory for the inode, `create("f")` keeps the dentry, and a reference to the root. -/
theorem create_leaks : ttyFs.FreshNodes (nodeArgs [102] 0) ∧
    (∃ s', ttyFs.nodeCall atRoot 9 (nodeArgs [102] 0) .create = some (.returns (-enospc) none s') ∧
      5 ∈ s'.live ∧ s'.dCount 1 = 2) ∧
    ¬ ttyFs.NoTrace atRoot 9 (nodeArgs [102] 0) .create := by
  have hcall : ∃ s', ttyFs.nodeCall atRoot 9 (nodeArgs [102] 0) .create = some (.returns (-enospc) none s') ∧
      5 ∈ s'.live ∧ s'.dCount 1 = 2 := ⟨_, rfl, by decide, by decide⟩
  refine ⟨⟨fun _ => by decide, fun hn => absurd rfl hn⟩, hcall, fun htrace => ?_⟩
  obtain ⟨s', he, hlive, -⟩ := hcall
  obtain ⟨r, hp⟩ : ∃ r, ttyFs.pathParent atRoot 9 (nodeArgs [102] 0) NodeCall.create.flags = some r := ⟨_, rfl⟩
  have hsame := (htrace r.1 r.2 hp _ _ _ he).1 (by decide)
  rw [hsame.live] at hlive
  exact absurd hlive (by decide)

end MiniOS

import Ysos.Scheduling
import Ysos.Kin

/-! # The process tree

`vfork` links a child to its parent in both directions.  `spawn` makes the current process the
parent of the new one but does not add it to the children, and `kill` makes the parent of the
killed process the parent of its children in the same way.

* `Kernel.kin`: the links of the processes; `Kernel.KeepsTree`: the calls that do not do this.
* `tree_consistent`: in every run of such calls the links of the living processes agree, and no
  living process has a dead parent; the first other call breaks this.
* `spawned_stranger`: the links of a process that was spawned. -/

namespace Ysos

open Runs

namespace Table

variable {t u v : Table} {r : Ref} {p : ProcessId} {c c' : ProcessContext} {ret : Int64}
  {D : Ref → Prop}

/-! ### Deaths -/

/-- From `t` to `u` nobody dies but those in `D`. -/
def Dies (D : Ref → Prop) (t u : Table) : Prop :=
  ∀ r, (u.proc r).status = .dead → (t.proc r).status = .dead ∨ D r

namespace Dies

theorem of_eq (h : u.proc = t.proc) : Dies D t u := fun _ hr => Or.inl (h ▸ hr)

theorem trans (h : Dies D t u) (h' : Dies D u v) : Dies D t v := fun r hr =>
  (h' r hr).elim (h r) Or.inr

theorem modify {f : Entry → Entry} (hf : ∀ e, (f e).status = .dead → D r) :
    Dies D t (t.modify r f) := by
  intro q hq
  by_cases hqr : q = r
  · subst hqr
    rw [show (t.modify q f).proc q = f (t.proc q) from Function.update_self _ _ _] at hq
    exact Or.inr (hf _ hq)
  · rw [show (t.modify r f).proc q = t.proc q from Function.update_of_ne hqr _ _] at hq
    exact Or.inl hq

theorem mark {f : Entry → Entry} (hf : ∀ e, (f e).status ≠ .dead) : Dies D t (t.modify r f) :=
  modify fun e he => absurd he (hf e)

theorem wakeUp {ret : Option Int64} : Dies D t (t.wakeUp ret p) := by
  rcases hr : t.processes p with _ | r
  · rw [wakeUp_none hr]
    exact of_eq rfl
  · rw [wakeUp_some hr]
    have hmod : Dies D t (t.modify r (Entry.wake ret)) := mark (by simp [Entry.wake])
    exact hmod.trans (of_eq rfl)

theorem wakeAll : ∀ {ps : List ProcessId} {t : Table}, Dies D t (t.wakeAll ret ps)
  | [], _ => of_eq rfl
  | _ :: _, _ => wakeUp.trans wakeAll

theorem block : Dies D t (t.block p) := by
  unfold Table.block
  split
  · exact mark (by simp [Entry.block])
  · exact of_eq rfl

theorem kill (hD : ∀ r, t.processes p = some r → D r) : Dies D t (t.kill ret p) := by
  rcases hr : t.processes p with _ | r
  · rw [kill_none hr]
    exact of_eq rfl
  · rw [kill_some hr]
    have hmod : Dies D t (t.modify r (Entry.kill ret)) := modify fun _ _ => hD r hr
    have hrem : Dies D t ((t.modify r (Entry.kill ret)).removeWaiters p) := hmod.trans (of_eq rfl)
    exact hrem.trans wakeAll

theorem create {e : Entry} (hready : e.status = .ready) : Dies D t (t.create e) := by
  intro q hq
  by_cases hqn : q = t.created + 1
  · subst hqn
    rw [show ((t.create e).proc (t.created + 1)).status = e.status by
      simp [Table.create, Table.insert], hready] at hq
    cases hq
  · rw [show (t.create e).proc q = t.proc q from Function.update_of_ne hqn _ _] at hq
    exact Or.inl hq

theorem pick (h : t.Pick c u c') : Dies D t u := by
  cases h with
  | none => exact of_eq rfl
  | same => exact of_eq rfl
  | @switch pre rest p r =>
      have hmod : Dies D t (t.modify r Entry.resume) := mark (by simp [Entry.resume])
      exact hmod.trans (of_eq rfl)

end Dies

/-- The process behind `r` is killed by the call. -/
def KilledBy (t : Table) (op : Op) (r : Ref) : Prop := ∃ p, t.Kills p op ∧ t.processes p = some r

theorem GiveUp.dies {call : Call} (hu : t.GiveUp call u) : Dies (t.KilledBy call.1) t u := by
  cases hu with
  | @switch c r hr =>
      have hsave : Dies (t.KilledBy .switch) t (t.modify r (Entry.save c)) :=
        .mark (by simp [Entry.save])
      exact hsave.trans (.of_eq rfl)
  | exit => exact .kill fun r hr => ⟨_, rfl, hr⟩
  | @wait pid c r hexit hr =>
      have hsave : Dies (t.KilledBy (.waitPid pid)) (t.register pid)
          ((t.register pid).modify r (Entry.save c)) := .mark (by simp [Entry.save])
      have hblock : Dies (t.KilledBy (.waitPid pid)) (t.register pid)
          (((t.register pid).modify r (Entry.save c)).modify r Entry.block) :=
        hsave.trans (.mark (by simp [Entry.block]))
      exact hblock
  | killSelf => exact .kill fun r hr => ⟨_, rfl, hr⟩
  | @vfork c e r hr hvm hready hexit hdata hvm' =>
      have hsave : Dies (t.KilledBy .vfork) t (t.modify r (Entry.save c)) :=
        .mark (by simp [Entry.save])
      have hfork : Dies (t.KilledBy .vfork) t
          ((t.modify r (Entry.save c)).modify r (Entry.setForked t.nextPid)) :=
        hsave.trans (.mark (by simp [Entry.setForked]))
      exact (hfork.trans (.create hready)).trans (.of_eq rfl)
  | @semBlock key c r d p sems hr hd hwait =>
      have hsave : Dies (t.KilledBy (.semWait key)) (t.setSemaphores d.semaphores sems)
          ((t.setSemaphores d.semaphores sems).modify r (Entry.save c)) :=
        .mark (by simp [Entry.save])
      have hblock : Dies (t.KilledBy (.semWait key)) (t.setSemaphores d.semaphores sems)
          (((t.setSemaphores d.semaphores sems).modify r (Entry.save c)).block p) :=
        hsave.trans .block
      exact hblock

theorem Stay.dies {call : Call} (hu : t.Stay call u c') : Dies (t.KilledBy call.1) t u := by
  cases hu with
  | spawn hr hready => exact Dies.create (t := t.setSemaphores _ _) hready
  | kill hne => exact .kill fun r hr => ⟨_, rfl, hr⟩
  | semWake => exact Dies.wakeUp (t := t.setSemaphores _ _)
  | _ => exact .of_eq rfl

theorem Step.dies {call : Call} (hu : t.Step call u c') : Dies (t.KilledBy call.1) t u := by
  cases hu with
  | giveUp hg hp => exact hg.dies.trans (.pick hp)
  | stay hs => exact hs.dies

theorem Step.killed {call : Call} (h : t.Sound) (hC : t.Spares call.1) (hu : t.Step call u c')
    (hr : t.KilledBy call.1 r) : u.Dead r := by
  obtain ⟨p, hop, hp⟩ := hr
  cases hu with
  | giveUp hg hpick =>
      have hfinal := Final.pick (Final.giveUp h hC hg).sound hpick
      refine hfinal.dead r ?_
      cases hg with
      | exit => exact h.killed hC (hop ▸ hp)
      | killSelf => exact h.killed hC (hop ▸ hp)
      | _ => exact absurd hop id
  | stay hs =>
      cases hs with
      | kill => exact h.killed hC (hop ▸ hp)
      | _ => exact absurd hop id

/-- The dead of the older processes after a call. -/
theorem Step.dead_iff {call : Call} (h : t.Sound) (hC : t.Spares call.1) (hu : t.Step call u c')
    (hle : r ≤ t.created) :
    (u.proc r).status = .dead ↔ (t.proc r).status = .dead ∨ t.KilledBy call.1 r := by
  refine ⟨hu.dies r, ?_⟩
  rintro (hd | hk)
  · exact ((Final.step h hC hu).dead r ⟨hle, hd⟩).2
  · exact (hu.killed h hC hk).2

end Table

/-! ### Links -/

/-- The parent of a record, also when it has been dropped, and the children. -/
def ProcessInner.links (p : ProcessInner) : Option Ref × List Ref := (p.parent.join, p.children)

variable {α : Type} {B : Build} {k k' : Kernel α} {c c' : ProcessContext} {r : Ref} {p : ProcessId}

namespace Kernel

/-- The processes with their links; those that are not dead are alive. -/
def kin (k : Kernel α) : Kin Ref where
  parent r := (k.heap r).inner.links.1
  children r := (k.heap r).inner.links.2
  Alive r := r ≤ k.created ∧ (k.heap r).inner.status ≠ .dead

/-- No link changes. -/
def SameLinks (k k' : Kernel α) : Prop :=
  ∀ r, (k'.heap r).inner.links = (k.heap r).inner.links

namespace SameLinks
variable {k₁ : Kernel α}

theorem of_heap (h : k'.heap = k.heap) : k.SameLinks k' := fun r => by rw [h]

theorem trans (h : k.SameLinks k₁) (h' : k₁.SameLinks k') : k.SameLinks k' := fun r =>
  (h' r).trans (h r)

theorem modify {f : ProcessInner → ProcessInner}
    (hf : (f (k.heap r).inner).links = (k.heap r).inner.links) : k.SameLinks (k.modify r f) := by
  intro q
  by_cases hq : q = r
  · subst hq
    simpa [Kernel.modify] using hf
  · simp [Kernel.modify, hq]

theorem wakeUp {ret : Option Int64} : k.SameLinks (k.wakeUp p ret) := by
  unfold Kernel.wakeUp
  split
  · rename_i r hr
    cases ret with
    | none =>
        have hmod : k.SameLinks (k.modify r fun p => p.pause) := .modify rfl
        exact hmod.trans (.of_heap rfl)
    | some ret =>
        have hmod : k.SameLinks (k.modify r fun p => (p.setReturn ret.toUInt64).pause) := .modify rfl
        exact hmod.trans (.of_heap rfl)
  · exact .of_heap rfl

theorem wakeAll {ret : Option Int64} : ∀ {ps : List ProcessId} {k : Kernel α},
    k.SameLinks (ps.foldl (fun k p => k.wakeUp p ret) k)
  | [], _ => .of_heap rfl
  | _ :: _, _ => wakeUp.trans wakeAll

theorem block : k.SameLinks (k.block p) := by
  unfold Kernel.block
  split
  · exact .modify rfl
  · exact .of_heap rfl

theorem saveCurrent (h : k.saveCurrent B c = .ok (p, k')) : k.SameLinks k' := by
  simp only [Kernel.saveCurrent, ProcessInner.tick, bind_eq_ok, pure_eq_ok] at h
  obtain ⟨r, -, p, ⟨n, -, rfl⟩, h⟩ := h
  cases h
  exact .modify rfl

theorem restore (h : k.restore r c = .ok (c', k')) : k.SameLinks k' := by
  simp only [Kernel.restore, ProcessInner.restore, bind_eq_ok, pure_eq_ok] at h
  obtain ⟨⟨c₁, p⟩, ⟨vm, -, hp⟩, h⟩ := h
  cases hp
  cases h
  exact .modify rfl

theorem switchLoop {cur : ProcessId} : ∀ {q : List ProcessId},
    k.switchLoop cur c q = .ok (p, c', k') → k.SameLinks k'
  | [], h => by
      cases h
      exact .of_heap rfl
  | next :: q, h => by
      simp only [Kernel.switchLoop] at h
      split at h
      · cases h
      split_ifs at h
      · exact switchLoop h
      · obtain ⟨⟨c₁, k₁⟩, hrestore, h⟩ := bind_eq_ok.mp h
        cases h
        exact (restore hrestore).trans (.of_heap rfl)
      · cases h
        exact .of_heap rfl

theorem switchNext (h : k.switchNext c = .ok (p, c', k')) : k.SameLinks k' := by
  simp only [Kernel.switchNext, bind_eq_ok] at h
  obtain ⟨cur, -, h⟩ := h
  exact switchLoop h

end SameLinks

/-- The process behind `r` is alive. -/
abbrev Alive (k : Kernel α) (r : Ref) : Prop := k.kin.Alive r

/-- The death of the process with the id `pid` leaves no living process with a parent that is dead
or does not have it as a child: its living children lose their parent, or there are none, and no
other child of its parent has its id. -/
def LeavesCleanly (k : Kernel α) (pid : ProcessId) : Prop :=
  ∀ r ∈ k.getProc pid,
    (k.parent (k.heap r).inner = none →
      ∀ c ∈ k.kin.children r, k.Alive c → k.kin.parent c ≠ some r) ∧
    ∀ p ∈ k.parent (k.heap r).inner, (k.heap p).inner.exitCode = none →
      (∀ c ∈ k.kin.children r, ¬ k.Alive c) ∧
      ∀ c ∈ k.kin.children p, c ≠ r → k.Alive c → k.kin.parent c = some p → (k.heap c).pid ≠ pid

/-- The calls that keep the tree: `spawn` finds no app, and deaths are clean. -/
def KeepsTree (k : Kernel α) : Op → Prop
  | .spawn name => (k.appList.bind fun apps => apps.find? fun app => app.name = name) = none
  | .processExit _ => k.LeavesCleanly k.processor
  | .kill pid => k.LeavesCleanly pid
  | _ => True

instance (k : Kernel α) (r : Ref) : Decidable (k.Alive r) :=
  inferInstanceAs (Decidable (r ≤ k.created ∧ (k.heap r).inner.status ≠ .dead))

instance (k : Kernel α) (pid : ProcessId) : Decidable (k.LeavesCleanly pid) :=
  inferInstanceAs (Decidable (∀ r ∈ k.getProc pid, _ ∧ ∀ p ∈ k.parent (k.heap r).inner, _))

instance (k : Kernel α) : ∀ op : Op, Decidable (k.KeepsTree op)
  | .spawn name => inferInstanceAs (Decidable
      ((k.appList.bind fun apps => apps.find? fun app => app.name = name) = none))
  | .processExit _ => inferInstanceAs (Decidable (k.LeavesCleanly k.processor))
  | .kill pid => inferInstanceAs (Decidable (k.LeavesCleanly pid))
  | .switch | .waitPid _ | .vfork | .semNew _ _ | .removeSem _ | .semWait _ | .semSignal _
  | .brk _ | .pageFault _ _ => isTrue trivial

/-! ### Deaths -/

theorem setParents_links (w : Weak) : ∀ (cs : List Ref) (k : Kernel α) (x : Ref),
    ((k.setParents cs w).heap x).inner.links =
      (if x ∈ cs then w else (k.heap x).inner.links.1, (k.heap x).inner.links.2)
  | [], k, x => by
      rw [if_neg List.not_mem_nil]
      rfl
  | c :: cs, k, x => by
      show (((k.modify c fun p => p.setParent w).setParents cs w).heap x).inner.links = _
      rw [setParents_links]
      by_cases hx : x = c
      · subst hx
        simp [Kernel.modify, ProcessInner.links, ProcessInner.setParent]
      · simp [Kernel.modify, hx]

/-- What the first part of a clean death does to the links of the living. -/
structure Leaves (k k₁ : Kernel α) (r : Ref) : Prop where
  children_sub : ∀ q c, c ∈ k₁.kin.children q → c ∈ k.kin.children q
  children_keep : ∀ q c, k.Alive c → k.Alive q → c ≠ r → c ∈ k.kin.children q →
    c ∈ k₁.kin.children q
  parent : ∀ c, k.Alive c → c ≠ r → k₁.kin.parent c = k.kin.parent c ∨
    c ∈ k.kin.children r ∧ k₁.kin.parent c = none
  orphan : ∀ c, k.Alive c → c ≠ r → k₁.kin.parent c ≠ some r

/-- The parent of a living process that is not a child of `r` is not `r`. -/
theorem parent_ne {x : Ref} (hok : k.kin.Ok) (hx : k.Alive x) (hnot : x ∉ k.kin.children r) :
    k.kin.parent x ≠ some r := fun hpar =>
  hnot ((hok.links x r hx (hok.living x r hx hpar)).mp hpar)

variable [FrameAllocator α]

theorem removeChild_links {q : Ref} (h : k.removeChild B q p = .ok k') (x : Ref) :
    (k'.heap x).inner.links = ((k.heap x).inner.links.1,
      if x = q then (k.heap x).inner.links.2.filter fun c => (k.heap c).pid ≠ p
      else (k.heap x).inner.links.2) := by
  rw [(releaseAll_same h).1]
  by_cases hx : x = q
  · subst hx
    simp [Kernel.modify, ProcessInner.links]
  · simp [Kernel.modify, hx]

/-- The first part of `kill`: nothing happens without a parent, the children go to a parent that
has not exited, and they are left without one if it has. -/
theorem leaveParent_kin {k₁ : Kernel α} (h : k.leaveParent B r = .ok k₁) :
    (k.parent (k.heap r).inner = none ∧ k₁ = k) ∨
    (∃ q, k.parent (k.heap r).inner = some q ∧ (k.heap q).inner.exitCode = none ∧
      (∀ x, k₁.kin.parent x = if x ∈ k.kin.children r then some q else k.kin.parent x) ∧
      ∀ x, k₁.kin.children x =
        if x = q then (k.kin.children x).filter fun c => (k.heap c).pid ≠ (k.heap r).pid
        else k.kin.children x) ∨
    (∃ q, k.parent (k.heap r).inner = some q ∧ (k.heap q).inner.exitCode ≠ none ∧
      (∀ x, k₁.kin.parent x = if x ∈ k.kin.children r then none else k.kin.parent x) ∧
      ∀ x, k₁.kin.children x = k.kin.children x) := by
  simp only [leaveParent] at h
  split at h
  · rename_i q hq
    split_ifs at h with hexit
    · simp only [bind_eq_ok, pure_eq_ok] at h
      obtain ⟨k₂, hrem, rfl⟩ := h
      have hlinks := setParents_links (some q) (k.heap r).inner.children k₂
      simp only [removeChild_links hrem] at hlinks
      exact Or.inr (Or.inl ⟨q, hq, Option.isNone_iff_eq_none.mp hexit,
        fun x => congrArg Prod.fst (hlinks x), fun x => congrArg Prod.snd (hlinks x)⟩)
    · cases h
      have hlinks := setParents_links none (k.heap r).inner.children k
      have hchildren : ∀ x, ((k.setParents (k.heap r).inner.children none).heap x).inner.links.2 =
          (k.heap x).inner.links.2 := fun x => by rw [hlinks x]
      exact Or.inr (Or.inr ⟨q, hq, fun he => hexit (Option.isNone_iff_eq_none.mpr he),
        fun x => congrArg Prod.fst (hlinks x), hchildren⟩)
  · rename_i hq
    cases h
    exact Or.inl ⟨hq, rfl⟩

theorem leaveParent_leaves {k₁ : Kernel α} (hok : k.kin.Ok) (hr : k.getProc p = some r)
    (hpid : (k.heap r).pid = p) (hclean : k.LeavesCleanly p) (h : k.leaveParent B r = .ok k₁) :
    k.Leaves k₁ r := by
  obtain ⟨hnone, hsome⟩ := hclean r hr
  rcases leaveParent_kin h with ⟨hq, rfl⟩ | ⟨q, hq, hexit, hparent, hchildren⟩ |
    ⟨q, hq, hexit, hparent, hchildren⟩
  · refine ⟨fun _ _ => id, fun _ _ _ _ _ => id, fun _ _ _ => Or.inl rfl, fun c hc _ hpar => ?_⟩
    by_cases hmem : c ∈ k₁.kin.children r
    · exact hnone hq c hmem hc hpar
    · exact parent_ne hok hc hmem hpar
  · -- all children are dead
    obtain ⟨hdead, hpids⟩ := hsome q hq hexit
    have hsame : ∀ c, k.Alive c → k₁.kin.parent c = k.kin.parent c := fun c hc =>
      (hparent c).trans (if_neg fun hm => hdead c hm hc)
    refine ⟨fun x c hc => ?_, fun x c hc hx hcr hm => ?_, fun c hc _ => Or.inl (hsame c hc),
      fun c hc _ => ?_⟩
    · rw [hchildren] at hc
      split_ifs at hc
      · exact (List.mem_filter.mp hc).1
      · exact hc
    · rw [hchildren]
      split_ifs with hxq
      · subst hxq
        rw [hpid]
        have hpar : k.kin.parent c = some x := (hok.links c x hc hx).mpr hm
        exact List.mem_filter.mpr ⟨hm, decide_eq_true (hpids c hm hcr hc hpar)⟩
      · exact hm
    · rw [hsame c hc]
      exact parent_ne hok hc fun hm => hdead c hm hc
  · refine ⟨fun x c hc => hchildren x ▸ hc, fun x c _ _ _ hm => hchildren x ▸ hm,
      fun c hc _ => ?_, fun c hc _ => ?_⟩
    · rw [hparent]
      split_ifs with hm
      · exact Or.inr ⟨hm, rfl⟩
      · exact Or.inl rfl
    · rw [hparent]
      split_ifs with hm
      · exact nofun
      · exact parent_ne hok hc hm

/-- After the first part, `kill` changes no links. -/
theorem kill_links {ret : Int64} (hr : k.getProc p = some r) (h : k.kill B p ret = .ok k') :
    ∃ k₁, k.leaveParent B r = .ok k₁ ∧ k₁.SameLinks k' := by
  simp only [kill, hr, killProcess, bind_eq_ok, pure_eq_ok] at h
  obtain ⟨k₃, ⟨k₁, hleave, k₂, hdrop, rfl⟩, h⟩ := h
  have hdead : k₁.SameLinks (k₂.modify r fun p =>
      { p with procVm := none, procData := none, exitCode := some ret, status := .dead }) :=
    SameLinks.trans (.of_heap (dropVm_same hdrop).1) (.modify rfl)
  refine ⟨k₁, hleave, ?_⟩
  split at h
  · cases h
    exact (hdead.trans (.of_heap rfl)).trans .wakeAll
  · cases h
    exact hdead

theorem vfork_links (h : k.vfork B = .ok k') (hle : ∀ r, k.current = .ok r → r ≠ k.created + 1) :
    ∃ r, k.current = .ok r ∧ (k'.heap (k.created + 1)).inner.links = (some r, []) ∧
      (k'.heap r).inner.links =
        (k.kin.parent r, k.kin.children r ++ [k.created + 1]) ∧
      ∀ x, x ≠ k.created + 1 → x ≠ r → (k'.heap x).inner.links = (k.heap x).inner.links := by
  simp only [vfork, vforkProcess, vforkInner, bind_eq_ok, pure_eq_ok] at h
  obtain ⟨r, hr, ⟨n, k₃⟩, ⟨⟨child, k₁⟩, ⟨vm, -, m, -, ⟨childVm, v⟩, -, offset, -, ctx, -, hin⟩, h₃⟩,
    k₄, hadd, rfl⟩ := h
  obtain ⟨rfl, rfl⟩ := Prod.mk.inj hin
  obtain ⟨rfl, rfl⟩ := Prod.mk.inj h₃
  have hheap := (addProc_table hadd).1
  have hne : r ≠ k.created + 1 := hle r hr
  have hne' : k.created + 1 ≠ r := hne.symm
  refine ⟨r, hr, ?_, ?_, fun x hx hxr => ?_⟩
  · show (k₄.heap _).inner.links = _
    rw [hheap]
    simp [Kernel.modify, setVm, ProcessInner.links, hne']
  · show (k₄.heap _).inner.links = _
    rw [hheap]
    simp [Kernel.modify, setVm, ProcessInner.links, ProcessInner.pause, hne, kin]
  · show (k₄.heap _).inner.links = _
    rw [hheap]
    simp [Kernel.modify, setVm, hx, hxr]

theorem spawn_links {elf : ElfFile} {name : String} {parent : Option Weak}
    {procData : Option ProcessData} (h : k.spawn B elf name parent procData = .ok (p, k')) :
    (k'.heap (k.created + 1)).inner.links = (parent.join, []) ∧
      ∀ x, x ≠ k.created + 1 → (k'.heap x).inner.links = (k.heap x).inner.links := by
  simp only [spawn] at h
  split at h
  · cases h
  simp only [bind_eq_ok, pure_eq_ok] at h
  obtain ⟨⟨i, k₁⟩, hclone, k₃, hload, k₄, hadd, h⟩ := h
  obtain ⟨-, rfl⟩ := Prod.mk.inj h
  have hsame : k₁.heap = k.heap ∧ k₁.created = k.created := by
    simp only [clonePageTable, bind_eq_ok] at hclone
    obtain ⟨vm, -, hclone⟩ := hclone
    split at hclone
    · cases hclone
    · cases hclone
      exact ⟨rfl, rfl⟩
  obtain ⟨hheap, hcreated⟩ := hsame
  simp only [loadElf, bind_eq_ok, pure_eq_ok] at hload
  obtain ⟨vm, -, ⟨vm', v⟩, -, rfl⟩ := hload
  constructor
  · show (k₄.heap _).inner.links = _
    rw [(addProc_table hadd).1]
    simp [Kernel.modify, newProcess, setVm, ProcessInner.links, ProcessInner.pause,
      ProcessInner.initStackFrame, hcreated]
  · intro x hx
    show (k₄.heap x).inner.links = _
    rw [(addProc_table hadd).1]
    simp [Kernel.modify, newProcess, setVm, hcreated, hx, hheap]

end Kernel

variable [FrameAllocator α]

open Kernel

/-! ### Calls -/

/-- The calls that change no links. -/
def Op.quiet : Op → Bool
  | .spawn _ | .processExit _ | .kill _ | .vfork => false
  | _ => true

omit [FrameAllocator α] in
theorem switch_links (h : Proc.switch B c k = .ok (k', c')) : k.SameLinks k' := by
  simp only [Proc.switch, bind_eq_ok, pure_eq_ok] at h
  obtain ⟨⟨pid, k₁⟩, hsave, ⟨p, c₁, k₂⟩, hnext, h⟩ := h
  cases h
  have hpush : k.SameLinks (k₁.pushReady pid) := (SameLinks.saveCurrent hsave).trans (.of_heap rfl)
  exact hpush.trans (.switchNext hnext)

omit [FrameAllocator α] in
theorem waitPid_links (h : Proc.waitPid B p c k = .ok (k', c')) : k.SameLinks k' := by
  unfold Proc.waitPid at h
  split at h
  · cases h
    exact .of_heap rfl
  · simp only [Kernel.waitPid, bind_eq_ok, pure_eq_ok] at h
    obtain ⟨k₁, ⟨cur, -, rfl⟩, ⟨_, k₂⟩, hsave, r', -, ⟨q, c₁, k₃⟩, hnext, h⟩ := h
    cases h
    have hsave' := SameLinks.saveCurrent hsave
    have hblock : k₂.SameLinks (k₂.modify r' ProcessInner.block) := .modify rfl
    exact (hsave'.trans hblock).trans (.switchNext hnext)

omit [FrameAllocator α] in
theorem semWait_links {key : ℕ} (h : Proc.semWait B key c k = .ok (k', c')) : k.SameLinks k' := by
  simp only [Proc.semWait] at h
  obtain ⟨r', -, h⟩ := bind_eq_ok.mp h
  obtain ⟨i, -, h⟩ := bind_eq_ok.mp h
  split at h
  · cases h
    exact .of_heap rfl
  · simp only [bind_eq_ok, pure_eq_ok] at h
    obtain ⟨⟨_, k₁⟩, hsave, ⟨_, c₁, k₂⟩, hnext, h⟩ := h
    cases h
    have hsave' := SameLinks.saveCurrent hsave
    exact (hsave'.trans .block).trans (.switchNext hnext)
  · cases h
    exact .of_heap rfl
  · cases h

omit [FrameAllocator α] in
theorem semSignal_links {key : ℕ} (h : Proc.semSignal B key c k = .ok (k', c')) :
    k.SameLinks k' := by
  simp only [Proc.semSignal] at h
  obtain ⟨i, -, h⟩ := bind_eq_ok.mp h
  obtain ⟨⟨res, sems⟩, -, h⟩ := bind_eq_ok.mp h
  cases res with
  | ok =>
      cases h
      exact .of_heap rfl
  | wakeUp q =>
      cases h
      have hsem : k.SameLinks (Proc.setSemaphores k i sems) := .of_heap rfl
      exact hsem.trans .wakeUp
  | notExist =>
      cases h
      exact .of_heap rfl
  | block q => cases h

theorem pageFault_links {addr : ℕ} {violation : Bool}
    (h : Proc.pageFault B addr violation k = .ok k') : k.SameLinks k' := by
  simp only [Proc.pageFault, bind_eq_ok] at h
  obtain ⟨⟨ok, k₁⟩, hfault, h⟩ := h
  cases ok
  · cases h
  cases h
  unfold handlePageFault at hfault
  split_ifs at hfault
  · cases hfault
  simp only [bind_eq_ok, pure_eq_ok] at hfault
  obtain ⟨r, -, vm, -, ⟨res, vm', v⟩, -, hfault⟩ := hfault
  cases hfault
  have hset : k.SameLinks (k.setVm vm.pageTable v) := .of_heap rfl
  exact hset.trans (.modify rfl)

theorem step_links {call : Call} (hop : call.1.quiet = true) (h : step B k call = .ok (k', c')) :
    k.SameLinks k' := by
  obtain ⟨op, c⟩ := call
  cases op with
  | switch => exact switch_links h
  | waitPid pid => exact waitPid_links h
  | semNew key value =>
      simp only [step, Proc.semNew, bind_eq_ok, pure_eq_ok] at h
      obtain ⟨⟨res, k₁⟩, ⟨i, -, hsem⟩, h⟩ := h
      cases hsem
      cases h
      exact .of_heap rfl
  | removeSem key =>
      simp only [step, Proc.removeSem, bind_eq_ok, pure_eq_ok] at h
      obtain ⟨⟨res, k₁⟩, ⟨i, -, hsem⟩, h⟩ := h
      cases hsem
      cases h
      exact .of_heap rfl
  | semWait key => exact semWait_links h
  | semSignal key => exact semSignal_links h
  | brk addr =>
      simp only [step, Proc.brk, bind_eq_ok, pure_eq_ok] at h
      obtain ⟨⟨res, k₁⟩, ⟨r, -, vm, -, hbrk⟩, h⟩ := h
      cases hbrk
      cases h
      exact .of_heap rfl
  | pageFault addr violation =>
      simp only [step, bind_eq_ok, pure_eq_ok] at h
      obtain ⟨k₁, hfault, h⟩ := h
      cases h
      exact pageFault_links hfault
  | _ => cases hop

/-! ### The tree -/

/-- The links of the living agree, and children are younger processes. -/
structure Kernel.Tree (k : Kernel α) : Prop where
  ok : k.kin.Ok
  younger : ∀ q c, c ∈ k.kin.children q → q < c ∧ c ≤ k.created

theorem Table.Step.created_same {t u : Table} {call : Call} (hu : t.Step call u c')
    (hfork : call.1 ≠ .vfork) (hspawn : ∀ name, call.1 ≠ .spawn name) : u.created = t.created := by
  cases hu with
  | giveUp hg hp =>
      rcases hg.created with hc | ⟨hop, -⟩
      · exact (Table.Names.pick hp).created.trans hc
      · exact absurd hop hfork
  | stay hs =>
      cases hs with
      | spawn => exact absurd rfl (hspawn _)
      | kill => exact Table.Names.kill.created
      | semWake => exact (Table.Names.wakeUp (t := t.setSemaphores _ _)).created
      | _ => rfl

omit [FrameAllocator α] in
/-- The living after a call without births: those who were alive and did not die. -/
theorem alive_iff {D : Ref → Prop} (hcreated : k'.created = k.created)
    (hdead : ∀ x ≤ k.created,
      (k'.heap x).inner.status = .dead ↔ (k.heap x).inner.status = .dead ∨ D x) (x : Ref) :
    k'.Alive x ↔ k.Alive x ∧ ¬ D x := by
  show (x ≤ k'.created ∧ _) ↔ (x ≤ k.created ∧ _) ∧ _
  rw [hcreated, and_assoc]
  refine and_congr_right fun hx => ?_
  rw [Ne, hdead x hx, not_or]

omit [FrameAllocator α] in
theorem Kernel.Tree.same (h : k.Tree) (hlinks : k.SameLinks k') (hcreated : k'.created = k.created)
    (halive : ∀ x, k'.Alive x ↔ k.Alive x) : k'.Tree := by
  have hchildren : k'.kin.children = k.kin.children := funext fun x => congrArg Prod.snd (hlinks x)
  refine ⟨h.ok.same (funext fun x => congrArg Prod.fst (hlinks x)) hchildren halive, ?_⟩
  rw [hchildren, hcreated]
  exact h.younger

theorem Kernel.Tree.kill {ret : Int64} {k₁ : Kernel α} (h : k.Tree) (hr : k.getProc p = some r)
    (hpid : (k.heap r).pid = p) (hclean : k.LeavesCleanly p) (hkill : k.kill B p ret = .ok k₁)
    (hlinks : k₁.SameLinks k') (hcreated : k'.created = k.created)
    (halive : ∀ x, k'.Alive x ↔ k.Alive x ∧ x ≠ r) : k'.Tree := by
  obtain ⟨k₂, hleave, hlinks₂⟩ := kill_links hr hkill
  have hl := leaveParent_leaves h.ok hr hpid hclean hleave
  have hsame : k₂.SameLinks k' := hlinks₂.trans hlinks
  have hparent : ∀ x, k'.kin.parent x = k₂.kin.parent x := fun x => congrArg Prod.fst (hsame x)
  have hchildren : ∀ x, k'.kin.children x = k₂.kin.children x := fun x =>
    congrArg Prod.snd (hsame x)
  have hdeath : Kin.Death k.kin k'.kin r := by
    refine ⟨halive, fun q c hc => ?_, fun q c hc hq hm => ?_, fun c hc => ?_⟩
    · exact hl.children_sub q c (hchildren q ▸ hc)
    · obtain ⟨hc, hne⟩ := (halive c).mp hc
      exact (hchildren q).symm ▸ hl.children_keep q c hc ((halive q).mp hq).1 hne hm
    · obtain ⟨hc, hne⟩ := (halive c).mp hc
      rw [hparent]
      exact hl.parent c hc hne
  refine ⟨h.ok.death hdeath fun c hc => ?_, fun q c hc => ?_⟩
  · obtain ⟨hc, hne⟩ := (halive c).mp hc
    rw [hparent]
    exact hl.orphan c hc hne
  · rw [hcreated]
    exact h.younger q c (hdeath.children_sub q c hc)

/-- The records after a `vfork`: the child has the current process as its parent. -/
theorem vfork_sameLinks (hk : k.table.Keyed) (hr : k.current = .ok r)
    (h : Proc.vfork B c k = .ok (k', c')) :
    (k'.heap (k.created + 1)).inner.links = (some r, []) ∧
    (k'.heap r).inner.links = (k.kin.parent r, k.kin.children r ++ [k.created + 1]) ∧
    ∀ x, x ≠ k.created + 1 → x ≠ r → (k'.heap x).inner.links = (k.heap x).inner.links := by
  simp only [Proc.vfork, bind_eq_ok, pure_eq_ok] at h
  obtain ⟨⟨pid, k₁⟩, hsave, k₂, hfork, ⟨q, c₁, k₃⟩, hnext, hlast⟩ := h
  obtain ⟨rfl, rfl⟩ := Prod.mk.inj hlast
  have hbefore : k.SameLinks k₁ := .saveCurrent hsave
  have hpush : k₂.SameLinks (k₂.pushReady pid) := .of_heap rfl
  have hafter : k₂.SameLinks k₃ := hpush.trans (.switchNext hnext)
  have hcreated : k₁.created = k.created := by
    obtain ⟨r₁, -, -, ht, -⟩ := saveCurrent_table hsave
    exact congrArg Table.created ht
  have hcur : ∀ r', k₁.current = .ok r' → r' = r := fun r' hr' => current_of_save hsave hr hr'
  have hne : ∀ r', k₁.current = .ok r' → r' ≠ k₁.created + 1 := fun r' hr' => by
    rw [hcur r' hr', hcreated]
    exact Nat.ne_of_lt (Nat.lt_succ_of_le (hk.current_le (current_ok hr)))
  obtain ⟨r', hr', hchild, hparent, hother⟩ := vfork_links hfork hne
  obtain rfl := hcur r' hr'
  rw [hcreated] at hchild hparent hother
  refine ⟨(hafter _).trans hchild, ?_, fun x hx hxr => ?_⟩
  · rw [hafter, hparent, show k₁.kin.parent r' = k.kin.parent r' from congrArg Prod.fst (hbefore r'),
      show k₁.kin.children r' = k.kin.children r' from congrArg Prod.snd (hbefore r')]
  · rw [hafter, hother x hx hxr, hbefore]

/-- A birth: `vfork` by a process that has a memory, and so is alive. -/
theorem Kernel.Tree.vfork (h : k.Tree) (hs : k.table.Sound)
    (hstep : Proc.vfork B c k = .ok (k', c')) : k'.Tree := by
  have hk := hs.keyed
  obtain ⟨r, vm, childVm, offset, sp, e, hcur, hvm, -, -, -, -, hready, -, hp⟩ := vfork_forked hk hstep
  have hcreated : k'.created = k.created + 1 := (Table.Names.pick hp).created
  have halive : k.Alive r := by
    refine ⟨hk.current_le hcur, fun hd => ?_⟩
    have hnone := (hs.memory r).mpr hd
    simp [Kernel.table, Process.entry, ProcessInner.entry, hvm] at hnone
  obtain ⟨hchild, hparent, hother⟩ := vfork_sameLinks hk (current_of_table hcur) hstep
  have hrn : r ≠ k.created + 1 := Nat.ne_of_lt (Nat.lt_succ_of_le halive.1)
  have hnew : (k'.table.proc (k.created + 1)).status ≠ .dead := fun hd => by
    have hdies : Table.Dies (fun _ => False) (k.table.forked r c e) k'.table := .pick hp
    have hdead := (hdies _ hd).resolve_right id
    rw [show (k.table.forked r c e).proc (k.created + 1) = { e with pid := k.table.nextPid } from
      Function.update_self _ _ _] at hdead
    rw [show ({ e with pid := k.table.nextPid } : Entry).status = e.status from rfl, hready] at hdead
    cases hdead
  have hbirth : Kin.Birth k.kin k'.kin r (k.created + 1) := by
    refine ⟨⟨fun hn => Nat.not_succ_le_self _ hn.1, fun q hm => ?_⟩, congrArg Prod.fst hchild,
      fun x hx => ?_, congrArg Prod.snd hchild, congrArg Prod.snd hparent,
      fun x hx hxr => congrArg Prod.snd (hother x hx hxr), fun x => ?_⟩
    · exact Nat.not_succ_le_self _ (h.younger q _ hm).2
    · by_cases hxr : x = r
      · subst hxr
        show (k'.heap x).inner.links.1 = k.kin.parent x
        rw [hparent]
      · exact congrArg Prod.fst (hother x hx hxr)
    · by_cases hx : x = k.created + 1
      · subst hx
        exact iff_of_true ⟨hcreated.ge, hnew⟩ (Or.inr rfl)
      · have hle : x ≤ k'.created ↔ x ≤ k.created := by
          rw [hcreated]
          exact ⟨fun hle => Nat.le_of_lt_succ (Nat.lt_of_le_of_ne hle hx), Nat.le_succ_of_le⟩
        refine Iff.trans (and_congr hle Iff.rfl) (Iff.trans ?_ (or_iff_left hx).symm)
        refine and_congr_right fun hle => not_congr ?_
        have hdead := (vfork_step hk hstep).dead_iff hs (show k.table.Spares .vfork from trivial) hle
        refine hdead.trans (or_iff_left ?_)
        rintro ⟨p, hkill, -⟩
        exact hkill
  refine ⟨h.ok.birth hbirth halive, fun q x hx => ?_⟩
  rw [hcreated]
  rcases (hbirth.mem_children halive).mp hx with ⟨-, hm⟩ | ⟨rfl, rfl⟩
  · exact (h.younger q x hm).imp_right Nat.le_succ_of_le
  · exact ⟨Nat.lt_succ_of_le halive.1, le_rfl⟩

/-! ### Deaths by a call -/

/-- A call that kills is a `kill` and no other change of the links. -/
theorem step_kill {call : Call} (hp : k.table.Kills p call.1) (h : step B k call = .ok (k', c')) :
    ∃ ret k₁, k.kill B p ret = .ok k₁ ∧ k₁.SameLinks k' := by
  obtain ⟨op, c⟩ := call
  cases op with
  | processExit ret =>
      cases hp
      simp only [step, Proc.processExit, bind_eq_ok, pure_eq_ok] at h
      obtain ⟨k₁, hself, ⟨q, c₁, k₂⟩, hnext, hlast⟩ := h
      cases hlast
      simp only [killSelf, bind_eq_ok] at hself
      obtain ⟨pid, hpid, hself⟩ := hself
      obtain rfl := getPid_ok hpid
      exact ⟨ret, k₁, hself, .switchNext hnext⟩
  | kill pid =>
      cases hp
      simp only [step, Proc.kill, bind_eq_ok] at h
      obtain ⟨cur, hcur, h⟩ := h
      obtain rfl := getPid_ok hcur
      split_ifs at h with hself
      · simp only [bind_eq_ok, pure_eq_ok] at h
        obtain ⟨k₁, hdie, ⟨q, c₁, k₂⟩, hnext, hlast⟩ := h
        cases hlast
        simp only [killSelf, bind_eq_ok] at hdie
        obtain ⟨pid', hpid, hdie⟩ := hdie
        obtain rfl := getPid_ok hpid
        cases hself
        exact ⟨_, k₁, hdie, .switchNext hnext⟩
      · simp only [bind_eq_ok, pure_eq_ok] at h
        obtain ⟨k₁, hdie, hlast⟩ := h
        cases hlast
        exact ⟨_, _, hdie, .of_heap rfl⟩
  | _ => exact hp.elim

omit [FrameAllocator α] in
theorem keepsTree_iff {op : Op} (hp : k.table.Kills p op) : k.KeepsTree op ↔ k.LeavesCleanly p := by
  cases op with
  | processExit ret =>
      cases hp
      exact Iff.rfl
  | kill pid =>
      cases hp
      exact Iff.rfl
  | _ => exact hp.elim

omit [FrameAllocator α] in
/-- Who is alive after the call: everybody who was, but the process with the id `p`. -/
theorem step_alive {call : Call} (hs : k.table.Sound) (hC : k.table.Spares call.1)
    (hst : k.table.Step call k'.table c') (hcreated : k'.created = k.created) (x : Ref) :
    k'.Alive x ↔ k.Alive x ∧ ¬ k.table.KilledBy call.1 x :=
  alive_iff hcreated (fun _ hx => hst.dead_iff hs hC hx) x

omit [FrameAllocator α] in
theorem killedBy_iff {op : Op} (hp : k.table.Kills p op) (x : Ref) :
    k.table.KilledBy op x ↔ k.getProc p = some x := by
  constructor
  · rintro ⟨q, hq, hx⟩
    cases op with
    | processExit => cases hp; cases hq; exact hx
    | kill => cases hp; cases hq; exact hx
    | _ => exact hp.elim
  · exact fun hx => ⟨p, hp, hx⟩

omit [FrameAllocator α] in
theorem kills_created {call : Call} (hp : k.table.Kills p call.1)
    (hst : k.table.Step call k'.table c') : k'.created = k.created :=
  hst.created_same (fun he => by rw [he] at hp; exact hp) fun name he => by
    rw [he] at hp
    exact hp

theorem Kernel.Tree.step_kill {call : Call} (h : k.Tree) (hs : k.table.Sound)
    (hC : k.table.Spares call.1) (hp : k.table.Kills p call.1) (hclean : k.LeavesCleanly p)
    (hstep : step B k call = .ok (k', c')) : k'.Tree := by
  have hst := step_table hs.keyed hstep
  have hcreated := kills_created hp hst
  obtain ⟨ret, k₁, hkill, hlinks⟩ := Ysos.step_kill hp hstep
  rcases hr : k.getProc p with _ | r
  · have hsame : k₁ = k := by
      simp only [Kernel.kill, hr] at hkill
      exact (Except.ok.inj hkill).symm
    subst hsame
    refine h.same hlinks hcreated fun x => ?_
    rw [step_alive hs hC hst hcreated x, and_iff_left]
    rw [killedBy_iff hp, hr]
    rintro ⟨⟩
  · refine h.kill hr (hs.keyed p r hr).2 hclean hkill hlinks hcreated fun x => ?_
    rw [step_alive hs hC hst hcreated x, killedBy_iff hp, hr, Option.some.injEq, eq_comm]

theorem Kernel.Tree.step {call : Call} (h : k.Tree) (hs : k.table.Sound)
    (hC : k.table.Spares call.1) (hT : k.KeepsTree call.1)
    (hstep : step B k call = .ok (k', c')) : k'.Tree := by
  have hst := step_table hs.keyed hstep
  obtain ⟨op, c⟩ := call
  have hquiet : op.quiet = true → k'.Tree := by
    intro hq
    have hcreated : k'.created = k.created :=
      hst.created_same (fun he => by cases (show op = .vfork from he); cases hq)
        fun name he => by cases (show op = .spawn name from he); cases hq
    refine h.same (step_links hq hstep) hcreated fun x => ?_
    rw [step_alive hs hC hst hcreated x, and_iff_left]
    rintro ⟨p, hkills, -⟩
    cases op with
    | processExit => cases hq
    | kill => cases hq
    | _ => exact hkills
  cases op with
  | vfork => exact h.vfork hs hstep
  | spawn name =>
      simp only [Ysos.step, Proc.spawn, show _ = none from hT, bind_eq_ok, pure_eq_ok] at hstep
      obtain ⟨⟨res, k₁⟩, hspawn, hlast⟩ := hstep
      cases hspawn
      cases hlast
      exact h
  | processExit ret => exact h.step_kill hs hC rfl hT hstep
  | kill pid => exact h.step_kill hs hC rfl hT hstep
  | _ => exact hquiet rfl

/-! ### Exactness -/

theorem Kernel.Tree.spawn_breaks {name : String} {app : App} {res : Except String ProcessId}
    (h : k.Tree) (hs : k.table.Sound)
    (happ : (k.appList.bind fun apps => apps.find? fun app => app.name = name) = some app)
    (hstep : Proc.spawn B name k = .ok (res, k')) : ¬ k'.kin.Agree := by
  simp only [Proc.spawn, happ, Proc.elfSpawn, bind_eq_ok, pure_eq_ok] at hstep
  obtain ⟨r, hr, ⟨pid, k₁⟩, hspawn, hlast⟩ := hstep
  cases hlast
  obtain ⟨hnew, hold⟩ := spawn_links hspawn
  obtain ⟨e, hready, -, -, -, ht⟩ := spawn_table hspawn
  have hlive : k₁.Alive (k.created + 1) := by
    refine ⟨(congrArg Table.created ht).ge, ?_⟩
    show (k₁.table.proc (k.created + 1)).status ≠ .dead
    rw [ht, show ((k.table.setSemaphores (k.table.created + 1) SemaphoreSet.empty).create e).proc
      (k.created + 1) = { e with pid := k.table.nextPid } from Function.update_self _ _ _]
    show e.status ≠ .dead
    rw [hready]
    rintro ⟨⟩
  refine Kin.not_agree_of_stranger (p := r) hlive (congrArg Prod.fst hnew) fun _ hmem => ?_
  have hrn : r ≠ k.created + 1 :=
    Nat.ne_of_lt (Nat.lt_succ_of_le (hs.keyed.current_le (current_ok hr)))
  rw [show k₁.kin.children r = k.kin.children r from congrArg Prod.snd (hold r hrn)] at hmem
  exact Nat.not_succ_le_self _ (h.younger r _ hmem).2

/-- A death after which the links of the living agree was clean. -/
theorem Kernel.Tree.clean_of_agree {ret : Int64} {k₁ : Kernel α} (h : k.Tree)
    (hpid : ∀ r, k.getProc p = some r → (k.heap r).pid = p) (hkill : k.kill B p ret = .ok k₁)
    (hlinks : k₁.SameLinks k')
    (halive : ∀ r, k.getProc p = some r → ∀ x, k'.Alive x ↔ k.Alive x ∧ x ≠ r)
    (hagree : k'.kin.Agree) : k.LeavesCleanly p := by
  intro r hr
  obtain ⟨k₂, hleave, hlinks₂⟩ := kill_links hr hkill
  have hsame : k₂.SameLinks k' := hlinks₂.trans hlinks
  have hparent' : ∀ x, k'.kin.parent x = k₂.kin.parent x := fun x => congrArg Prod.fst (hsame x)
  have hchildren' : ∀ x, k'.kin.children x = k₂.kin.children x := fun x =>
    congrArg Prod.snd (hsame x)
  have hdead : ¬ k'.Alive r := fun hlive => ((halive r hr r).mp hlive).2 rfl
  have hlive : ∀ c ∈ k.kin.children r, k.Alive c → k'.Alive c := fun c hc hlive =>
    (halive r hr c).mpr ⟨hlive, (h.younger r c hc).1.ne'⟩
  refine ⟨fun hnone c hc hl hpar => ?_, fun q hq hexit => ?_⟩
  · have hk : k₂ = k := by
      rcases leaveParent_kin hleave with ⟨-, hk⟩ | ⟨q, hq, -⟩ | ⟨q, hq, -⟩
      · exact hk
      · rw [hnone] at hq
        cases hq
      · rw [hnone] at hq
        cases hq
    refine hdead (hagree.living c r (hlive c hc hl) ?_)
    rw [hparent', hk, hpar]
  · have hleft : (∀ x, k₂.kin.parent x = if x ∈ k.kin.children r then some q else k.kin.parent x) ∧
        ∀ x, k₂.kin.children x =
          if x = q then (k.kin.children x).filter fun c => (k.heap c).pid ≠ (k.heap r).pid
          else k.kin.children x := by
      rcases leaveParent_kin hleave with ⟨hnone, -⟩ | ⟨q', hq', -, hleft⟩ | ⟨q', hq', hexit', -⟩
      · rw [hq] at hnone
        cases hnone
      · cases hq.symm.trans hq'
        exact hleft
      · cases hq.symm.trans hq'
        exact absurd hexit hexit'
    obtain ⟨hparent, hchildren⟩ := hleft
    have hmem : ∀ c, c ∈ k'.kin.children q →
        c ∈ k.kin.children q ∧ (k.heap c).pid ≠ (k.heap r).pid := by
      intro c hc
      rw [hchildren', hchildren, if_pos rfl] at hc
      exact ⟨(List.mem_filter.mp hc).1, of_decide_eq_true (List.mem_filter.mp hc).2⟩
    have hnochild : ∀ c ∈ k.kin.children r, ¬ k.Alive c := by
      intro c hc hl
      have hpar : k'.kin.parent c = some q := by
        rw [hparent', hparent, if_pos hc]
      have hqlive := hagree.living c q (hlive c hc hl) hpar
      have hcq := (hmem c ((hagree.links c q (hlive c hc hl) hqlive).mp hpar)).1
      rw [h.ok.unique q r c hcq hc] at hqlive
      exact hdead hqlive
    refine ⟨hnochild, fun c hc hcr hl hpar hid => ?_⟩
    have hl' : k'.Alive c := (halive r hr c).mpr ⟨hl, hcr⟩
    have hpar' : k'.kin.parent c = some q := by
      rw [hparent', hparent, if_neg fun hm => hnochild c hm hl, hpar]
    have hqlive := hagree.living c q hl' hpar'
    refine (hmem c ((hagree.links c q hl' hqlive).mp hpar')).2 ?_
    rw [hid, hpid r hr]

/-- **The condition is exact.**  A call from a state with a tree keeps the links in agreement only
if it keeps the tree. -/
theorem Kernel.Tree.agree_iff {call : Call} (h : k.Tree) (hs : k.table.Sound)
    (hC : k.table.Spares call.1) (hstep : Ysos.step B k call = .ok (k', c')) :
    k'.kin.Agree ↔ k.KeepsTree call.1 := by
  refine ⟨fun hagree => ?_, fun hT => (h.step hs hC hT hstep).ok.toAgree⟩
  have hst := step_table hs.keyed hstep
  have hkills : ∀ p, k.table.Kills p call.1 → k.KeepsTree call.1 := by
    intro p hp
    obtain ⟨ret, k₁, hkill, hlinks⟩ := Ysos.step_kill hp hstep
    refine (keepsTree_iff hp).mpr (h.clean_of_agree (fun r hr => (hs.keyed p r hr).2) hkill hlinks
      (fun r hr x => ?_) hagree)
    rw [step_alive hs hC hst (kills_created hp hst) x, killedBy_iff hp, hr, Option.some.injEq,
      eq_comm]
  obtain ⟨op, c⟩ := call
  cases op with
  | spawn name =>
      simp only [Ysos.step, bind_eq_ok, pure_eq_ok] at hstep
      obtain ⟨⟨res, k₁⟩, hspawn, hlast⟩ := hstep
      cases hlast
      refine Option.eq_none_iff_forall_ne_some.mpr fun app happ => ?_
      exact h.spawn_breaks hs happ hspawn hagree
  | processExit ret => exact hkills _ rfl
  | kill pid => exact hkills _ rfl
  | _ => exact trivial

omit [FrameAllocator α] in
theorem boot_tree (b : BootInfo α) : (boot b).Tree := by
  have hlinks : ∀ r, ((boot b).heap r).inner.links = (none, []) := by
    intro r
    by_cases hr : r = 1
    · subst hr
      rfl
    · rw [show (boot b).heap r = default by
        simp [boot, Kernel.modify, Kernel.newProcess, BootInfo.bare, hr]]
      rfl
  have hparent : ∀ r, (boot b).kin.parent r = none := fun r => congrArg Prod.fst (hlinks r)
  have hchildren : ∀ r, (boot b).kin.children r = [] := fun r => congrArg Prod.snd (hlinks r)
  refine ⟨⟨⟨fun c p _ _ => ?_, fun c p _ hp => ?_⟩, fun p q c hc _ => ?_⟩, fun q c hc => ?_⟩
  · rw [hparent, hchildren]
    exact iff_of_false (by rintro ⟨⟩) List.not_mem_nil
  · rw [hparent] at hp
    cases hp
  · rw [hchildren] at hc
    cases hc
  · rw [hchildren] at hc
    cases hc

/-- The condition of the runs that keep the tree: `spawn` finds no app, deaths are clean, and no
dead process is woken or suspended. -/
abbrev TreeKept (k : Kernel α) (call : Call) (_ : Kernel α) : Prop :=
  k.table.Spares call.1 ∧ k.KeepsTree call.1

/-- **The process tree.**  In every run of calls that keep the tree: among the processes that are
not dead, `p` is the parent of `c` exactly when `c` is a child of `p`, and a parent of a process
that is not dead is not dead.  The first call that does not keep the tree breaks this. -/
theorem tree_consistent {b : BootInfo α} {s : Kernel α} (h : Run (step B) TreeKept (boot b) s) :
    s.kin.Agree ∧ ∀ call t c', step B s call = .ok (t, c') → s.table.Spares call.1 →
      (t.kin.Agree ↔ s.KeepsTree call.1) := by
  have htree : s.table.Sound ∧ s.Tree := h.invariant (P := fun k => k.table.Sound ∧ k.Tree)
    ⟨boot_sound b, boot_tree b⟩ fun k call k' c' hk hstep hC =>
      ⟨(Table.Final.step hk.1 hC.1 (step_table hk.1.keyed hstep)).sound,
        hk.2.step hk.1 hC.1 hC.2 hstep⟩
  exact ⟨htree.2.ok.toAgree, fun call t c' hstep hC => htree.2.agree_iff htree.1 hC hstep⟩

/-- The kernel process forks process 2, which is its child, and outlives it. -/
theorem tree_consistent_example : ∃ s t : Kernel BootInfoFrameAllocator,
    2 ∈ s.kin.children 1 ∧ s.kin.parent 2 = some 1 ∧ s.Alive 2 ∧ ¬ t.Alive 2 ∧ t.kin.Agree := by
  have hs : (execCalls TreeKept default [.vfork]).map (fun s =>
      (s.created, (s.heap 1).inner.status, (s.heap 1).inner.children, (s.heap 2).inner.status,
        (exec (step Build.release) TreeKept s [(.switch, default), (.kill 2, default)]).map
          fun t => (t.heap 2).inner.status)) =
      some (2, .ready, [2], .running, some .dead) := by
    decide +kernel
  obtain ⟨s, hs, hval⟩ := Option.map_eq_some_iff.mp hs
  simp only [Prod.mk.injEq] at hval
  obtain ⟨hcreated, hparent, hchildren, hstatus, ht⟩ := hval
  obtain ⟨t, ht, hdead⟩ := Option.map_eq_some_iff.mp ht
  have hrun := run_of_exec hs
  have hlive : s.Alive 2 := ⟨hcreated.ge, by rw [hstatus]; decide⟩
  have hlive' : s.Alive 1 := ⟨by rw [hcreated]; decide, by rw [hparent]; decide⟩
  have hmem : 2 ∈ s.kin.children 1 := by
    show 2 ∈ (s.heap 1).inner.children
    rw [hchildren]
    exact List.mem_singleton_self 2
  refine ⟨s, t, hmem, ((tree_consistent hrun).1.links 2 1 hlive hlive').mpr hmem, hlive,
    fun hl => hl.2 hdead, ?_⟩
  exact (tree_consistent (hrun.trans (run_of_exec ht))).1

/-- The kernel process spawns a program: it is the parent of the new process, which is not among
its children. -/
theorem spawned_stranger : ¬ ∀ (b : BootInfo BootInfoFrameAllocator)
    (s : Kernel BootInfoFrameAllocator), Run (step Build.release) Any (boot b) s → s.kin.Agree := by
  intro hall
  have hs : (execCalls Any default [.spawn "sh"]).map (fun s =>
      (s.created, (s.heap 1).inner.status, (s.heap 1).inner.children, (s.heap 2).inner.status,
        (s.heap 2).inner.parent.join)) = some (2, .running, [], .ready, some 1) := by
    decide +kernel
  obtain ⟨s, hs, hval⟩ := Option.map_eq_some_iff.mp hs
  simp only [Prod.mk.injEq] at hval
  obtain ⟨hcreated, -, hchildren, hstatus, hparent⟩ := hval
  have hlive : s.Alive 2 := ⟨hcreated.ge, by rw [hstatus]; exact nofun⟩
  refine Kin.not_agree_of_stranger (p := 1) hlive hparent (fun _ hmem => ?_)
    (hall _ s (run_of_exec hs))
  · rw [show s.kin.children 1 = (s.heap 1).inner.children from rfl, hchildren] at hmem
    cases hmem

end Ysos

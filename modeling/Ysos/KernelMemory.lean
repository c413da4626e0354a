import Ysos.Tree

/-! # The memory of the kernel

* `Kernel.memory`: what the kernel knows about memory.  Most calls leave it as it is (`still_memory`).
* `Memory.Counted`: no `Arc` of a child is its last, so that killing a process drops no other.
* `killProcess_memory`, `brk_memory`, `pageFault_memory`, `vfork_memory`, `spawn_memory`: the others. -/

namespace Ysos

open Runs

/-- The memory, with what the processes have of it and the `Arc`s that keep them. -/
structure Memory where
  procVm : Ref → Option ProcessVm
  children : Ref → List Ref
  strong : Ref → ℕ
  created : ℕ
  spaces : SpaceId → AddressSpace
  alloc : BootInfoFrameAllocator
  phys : Frame → ℕ → UInt8

namespace Memory

def vm (M : Memory) (i : SpaceId) : Vm BootInfoFrameAllocator := ⟨M.spaces i, M.alloc, M.phys⟩

def setVm (M : Memory) (i : SpaceId) (v : Vm BootInfoFrameAllocator) : Memory :=
  { M with spaces := Function.update M.spaces i v.space, alloc := v.alloc, phys := v.phys }

end Memory

variable {B : Build} {k k' : Kernel BootInfoFrameAllocator} {c c' : ProcessContext} {r : Ref}
  {p : ProcessId}

namespace Kernel

def memory (k : Kernel BootInfoFrameAllocator) : Memory where
  procVm r := (k.heap r).inner.procVm
  children r := (k.heap r).inner.children
  strong := k.strong
  created := k.created
  spaces := k.spaces
  alloc := k.alloc
  phys := k.phys

/-! ### Calls that leave the memory as it is -/

/-- Records and counts are all that the memory depends on. -/
theorem memory_congr (hheap : ∀ r, (k'.heap r).inner.procVm = (k.heap r).inner.procVm ∧
      (k'.heap r).inner.children = (k.heap r).inner.children)
    (hstrong : k'.strong = k.strong) (hcreated : k'.created = k.created)
    (hspaces : k'.spaces = k.spaces) (halloc : k'.alloc = k.alloc) (hphys : k'.phys = k.phys) :
    k'.memory = k.memory := by
  have hvm : (fun r => (k'.heap r).inner.procVm) = fun r => (k.heap r).inner.procVm :=
    funext fun r => (hheap r).1
  have hchildren : (fun r => (k'.heap r).inner.children) = fun r => (k.heap r).inner.children :=
    funext fun r => (hheap r).2
  unfold memory
  rw [hvm, hchildren, hstrong, hcreated, hspaces, halloc, hphys]

theorem memory_modify {f : ProcessInner → ProcessInner}
    (hvm : (f (k.heap r).inner).procVm = (k.heap r).inner.procVm)
    (hchildren : (f (k.heap r).inner).children = (k.heap r).inner.children) :
    (k.modify r f).memory = k.memory := by
  refine memory_congr (fun q => ?_) rfl rfl rfl rfl rfl
  by_cases hq : q = r
  · subst hq
    simp only [modify, Function.update_self]
    exact ⟨hvm, hchildren⟩
  · simp only [modify, Function.update_of_ne hq, and_self]

theorem wakeUp_memory {ret : Option Int64} : (k.wakeUp p ret).memory = k.memory := by
  unfold wakeUp
  split
  · rename_i r hr
    cases ret with
    | none =>
        have hmod : (k.modify r fun p => p.pause).memory = k.memory := memory_modify rfl rfl
        exact hmod
    | some ret =>
        have hmod : (k.modify r fun p => (p.setReturn ret.toUInt64).pause).memory = k.memory :=
          memory_modify rfl rfl
        exact hmod
  · rfl

theorem wakeAll_memory {ret : Option Int64} : ∀ {ps : List ProcessId}
    {k : Kernel BootInfoFrameAllocator},
      (ps.foldl (fun k p => k.wakeUp p ret) k).memory = k.memory
  | [], _ => rfl
  | p :: ps, k => by
      have hrest : (ps.foldl (fun k p => k.wakeUp p ret) (k.wakeUp p ret)).memory =
          (k.wakeUp p ret).memory := wakeAll_memory
      exact hrest.trans wakeUp_memory

theorem block_memory : (k.block p).memory = k.memory := by
  unfold block
  split
  · exact memory_modify rfl rfl
  · rfl

theorem saveCurrent_memory (h : k.saveCurrent B c = .ok (p, k')) : k'.memory = k.memory := by
  simp only [saveCurrent, ProcessInner.tick, bind_eq_ok, pure_eq_ok] at h
  obtain ⟨r, -, q, ⟨n, -, rfl⟩, h⟩ := h
  cases h
  exact memory_modify rfl rfl

theorem restore_memory (h : k.restore r c = .ok (c', k')) : k'.memory = k.memory := by
  simp only [restore, ProcessInner.restore, bind_eq_ok, pure_eq_ok] at h
  obtain ⟨⟨c₁, q⟩, ⟨vm, -, hq⟩, h⟩ := h
  cases hq
  cases h
  exact memory_modify rfl rfl

theorem switchLoop_memory {cur : ProcessId} : ∀ {q : List ProcessId},
    k.switchLoop cur c q = .ok (p, c', k') → k'.memory = k.memory
  | [], h => by
      cases h
      rfl
  | next :: q, h => by
      simp only [switchLoop] at h
      split at h
      · cases h
      split_ifs at h
      · exact switchLoop_memory h
      · obtain ⟨⟨c₁, k₁⟩, hrestore, h⟩ := bind_eq_ok.mp h
        have hrest : k₁.memory = k.memory := restore_memory hrestore
        cases h
        exact hrest
      · cases h
        rfl

theorem switchNext_memory (h : k.switchNext c = .ok (p, c', k')) : k'.memory = k.memory := by
  simp only [switchNext, bind_eq_ok] at h
  obtain ⟨cur, -, h⟩ := h
  exact switchLoop_memory h

theorem setParents_memory {w : Weak} : ∀ {cs : List Ref} {k : Kernel BootInfoFrameAllocator},
    (k.setParents cs w).memory = k.memory
  | [], _ => rfl
  | c :: cs, k => by
      have hrest : ((k.modify c fun p => p.setParent w).setParents cs w).memory =
          (k.modify c fun p => p.setParent w).memory := setParents_memory
      exact hrest.trans (memory_modify rfl rfl)

theorem waitPid_memory (h : k.waitPid p = .ok k') : k'.memory = k.memory := by
  simp only [waitPid, bind_eq_ok, pure_eq_ok] at h
  obtain ⟨cur, -, rfl⟩ := h
  rfl

end Kernel

open Kernel

/-- The calls that neither map nor unmap, and neither make nor kill a process. -/
def Op.still : Op → Bool
  | .brk _ | .pageFault _ _ => false
  | op => op.quiet

theorem switch_memory (h : Proc.switch B c k = .ok (k', c')) : k'.memory = k.memory := by
  simp only [Proc.switch, bind_eq_ok, pure_eq_ok] at h
  obtain ⟨⟨pid, k₁⟩, hsave, ⟨p, c₁, k₂⟩, hnext, h⟩ := h
  cases h
  have hsaved : k₁.memory = k.memory := saveCurrent_memory hsave
  exact (switchNext_memory hnext).trans hsaved

theorem procWaitPid_memory (h : Proc.waitPid B p c k = .ok (k', c')) : k'.memory = k.memory := by
  unfold Proc.waitPid at h
  split at h
  · cases h
    rfl
  · simp only [bind_eq_ok, pure_eq_ok] at h
    obtain ⟨k₁, hwait, ⟨_, k₂⟩, hsave, r, -, ⟨q, c₁, k₃⟩, hnext, h⟩ := h
    cases h
    have hblock : (k₂.modify r ProcessInner.block).memory = k₂.memory := memory_modify rfl rfl
    rw [switchNext_memory hnext, hblock, saveCurrent_memory hsave, waitPid_memory hwait]

theorem semWait_memory {key : ℕ} (h : Proc.semWait B key c k = .ok (k', c')) :
    k'.memory = k.memory := by
  simp only [Proc.semWait] at h
  obtain ⟨r, -, h⟩ := bind_eq_ok.mp h
  obtain ⟨i, -, h⟩ := bind_eq_ok.mp h
  rcases hwait : (k.semaphoreSets i).wait key (k.heap r).pid with ⟨res, sems⟩
  simp only [hwait] at h
  cases res with
  | ok =>
      cases h
      rfl
  | notExist =>
      cases h
      rfl
  | wakeUp q => cases h
  | block q =>
      simp only [bind_eq_ok, pure_eq_ok] at h
      obtain ⟨⟨_, k₁⟩, hsave, ⟨_, c₁, k₂⟩, hnext, h⟩ := h
      cases h
      rw [switchNext_memory hnext, block_memory, saveCurrent_memory hsave]
      rfl

theorem semSignal_memory {key : ℕ} (h : Proc.semSignal B key c k = .ok (k', c')) :
    k'.memory = k.memory := by
  simp only [Proc.semSignal] at h
  obtain ⟨i, -, h⟩ := bind_eq_ok.mp h
  obtain ⟨⟨res, sems⟩, -, h⟩ := bind_eq_ok.mp h
  cases res with
  | ok =>
      cases h
      rfl
  | notExist =>
      cases h
      rfl
  | wakeUp q =>
      cases h
      exact wakeUp_memory
  | block q => cases h

theorem still_memory {call : Call} (hstill : call.1.still = true) (h : step B k call = .ok (k', c')) :
    k'.memory = k.memory := by
  obtain ⟨op, c⟩ := call
  cases op with
  | switch => exact switch_memory h
  | waitPid pid => exact procWaitPid_memory h
  | semNew key value =>
      simp only [step, Proc.semNew, bind_eq_ok, pure_eq_ok] at h
      obtain ⟨⟨res, k₁⟩, ⟨i, -, hsem⟩, h⟩ := h
      cases hsem
      cases h
      rfl
  | removeSem key =>
      simp only [step, Proc.removeSem, bind_eq_ok, pure_eq_ok] at h
      obtain ⟨⟨res, k₁⟩, ⟨i, -, hsem⟩, h⟩ := h
      cases hsem
      cases h
      rfl
  | semWait key => exact semWait_memory h
  | semSignal key => exact semSignal_memory h
  | _ => cases hstill

/-! ### `Arc`s -/

namespace Memory

variable {M M' : Memory}

/-- The children of a process have another `Arc`, that of the table, and one parent. -/
structure Counted (M : Memory) : Prop where
  nodup : ∀ q, (M.children q).Nodup
  arcs : ∀ q c, c ∈ M.children q → 2 ≤ M.strong c ∧ c ≤ M.created
  unique : ∀ q q' c, c ∈ M.children q → c ∈ M.children q' → q = q'

namespace Counted

theorem congr (h : M.Counted) (hchildren : M'.children = M.children) (hstrong : M'.strong = M.strong)
    (hcreated : M'.created = M.created) : M'.Counted := by
  refine ⟨hchildren ▸ h.nodup, ?_, hchildren ▸ h.unique⟩
  rw [hchildren, hstrong, hcreated]
  exact h.arcs

/-- A new process that is nobody's child. -/
theorem create (h : M.Counted) (hcreated : M.created ≤ M'.created)
    (hstrong : ∀ c ≤ M.created, M'.strong c = M.strong c)
    (hchildren : ∀ q, M'.children q = M.children q ∨ M'.children q = []) : M'.Counted := by
  have hsub : ∀ q c, c ∈ M'.children q → c ∈ M.children q := fun q c hc => by
    rcases hchildren q with hq | hq
    · exact hq ▸ hc
    · rw [hq] at hc
      cases hc
  refine ⟨fun q => ?_, fun q c hc => ?_, fun q q' c hc hc' =>
    h.unique q q' c (hsub q c hc) (hsub q' c hc')⟩
  · rcases hchildren q with hq | hq
    · exact hq ▸ h.nodup q
    · rw [hq]
      exact List.nodup_nil
  · obtain ⟨harcs, hle⟩ := h.arcs q c (hsub q c hc)
    exact ⟨(hstrong c hle).symm ▸ harcs, hle.trans hcreated⟩

/-- A new process that is the child of `r`. -/
theorem fork {r n : Ref} (h : M.Counted) (hn : n = M.created + 1) (hcreated : M'.created = n)
    (hstrong : ∀ c ≤ M.created, M'.strong c = M.strong c) (hnew : 2 ≤ M'.strong n)
    (hr : M'.children r = M.children r ++ [n])
    (hchildren : ∀ q, q ≠ r → M'.children q = M.children q ∨ M'.children q = []) : M'.Counted := by
  subst hn
  have hnot : ∀ q, M.created + 1 ∉ M.children q := fun q hq =>
    Nat.not_succ_le_self _ (h.arcs q _ hq).2
  have hsub : ∀ q c, c ∈ M'.children q → c ∈ M.children q ∨ q = r ∧ c = M.created + 1 := by
    intro q c hc
    by_cases hq : q = r
    · rw [hq, hr, List.mem_append, List.mem_singleton] at hc
      rw [hq]
      exact hc.imp_right fun hc => ⟨rfl, hc⟩
    · rcases hchildren q hq with he | he
      · exact Or.inl (he ▸ hc)
      · rw [he] at hc
        cases hc
  refine ⟨fun q => ?_, fun q c hc => ?_, fun q q' c hc hc' => ?_⟩
  · by_cases hq : q = r
    · rw [hq, hr]
      refine List.nodup_append'.mpr ⟨h.nodup r, List.nodup_singleton _, ?_⟩
      exact List.disjoint_singleton.mpr (hnot r)
    · rcases hchildren q hq with he | he
      · exact he ▸ h.nodup q
      · rw [he]
        exact List.nodup_nil
  · rw [hcreated]
    rcases hsub q c hc with hold | ⟨-, rfl⟩
    · obtain ⟨harcs, hle⟩ := h.arcs q c hold
      exact ⟨(hstrong c hle).symm ▸ harcs, Nat.le_succ_of_le hle⟩
    · exact ⟨hnew, le_rfl⟩
  · rcases hsub q c hc with hold | ⟨hq, hn⟩ <;> rcases hsub q' c hc' with hold' | ⟨hq', hn'⟩
    · exact h.unique q q' c hold hold'
    · exact absurd (hn' ▸ hold) (hnot q)
    · exact absurd (hn ▸ hold') (hnot q')
    · exact hq.trans hq'.symm

end Counted

end Memory

namespace Kernel

/-- No process is dropped when an `Arc` goes that is not the last. -/
theorem release_counted {n : ℕ} (hr : 2 ≤ k.strong r) (h : k.release B n r = .ok k') :
    k' = { k with strong := k'.strong } ∧ ∀ c, c ≠ r → k'.strong c = k.strong c := by
  cases n with
  | zero =>
      cases h
      exact ⟨rfl, fun _ _ => rfl⟩
  | succ n =>
      simp only [release, Function.update_self] at h
      rw [if_neg (by omega)] at h
      cases h
      exact ⟨rfl, fun c hc => Function.update_of_ne hc _ _⟩

theorem releaseAll_counted : ∀ {rs : List Ref} {k k' : Kernel BootInfoFrameAllocator}, rs.Nodup →
    (∀ c ∈ rs, 2 ≤ k.strong c) → k.releaseAll B rs = .ok k' →
    k' = { k with strong := k'.strong } ∧ ∀ c, c ∉ rs → k'.strong c = k.strong c
  | [], k, k', _, _, h => by
      cases h
      exact ⟨rfl, fun _ _ => rfl⟩
  | r :: rs, k, k', hnodup, hcount, h => by
      rw [releaseAll, List.foldlM_cons] at h
      obtain ⟨k₁, hfirst, hrest⟩ := bind_eq_ok.mp h
      obtain ⟨hnot, hnodup⟩ := List.nodup_cons.mp hnodup
      obtain ⟨hk₁, hkeep⟩ := release_counted (hcount r List.mem_cons_self) hfirst
      have hcount₁ : ∀ c ∈ rs, 2 ≤ k₁.strong c := fun c hc => by
        rw [hkeep c fun he => hnot (he ▸ hc)]
        exact hcount c (List.mem_cons_of_mem _ hc)
      obtain ⟨hk', hkeep'⟩ := releaseAll_counted hnodup hcount₁ hrest
      refine ⟨?_, fun c hc => ?_⟩
      · rw [hk', hk₁]
      · obtain ⟨hcr, hcs⟩ := not_or.mp (mt List.mem_cons.mpr hc)
        rw [hkeep' c hcs, hkeep c hcr]

/-- A memory with other `Arc`s. -/
def Rewired (M M' : Memory) : Prop :=
  M' = { M with children := M'.children, strong := M'.strong } ∧ M'.Counted

theorem removeChild_memory {q : Ref} (hM : k.memory.Counted) (h : k.removeChild B q p = .ok k') :
    Rewired k.memory k'.memory := by
  have hcount : ∀ c ∈ (k.memory.children q).filter fun c => (k.heap c).pid = p, 2 ≤ k.strong c :=
    fun c hc => (hM.arcs q c (List.mem_of_mem_filter hc)).1
  obtain ⟨hk', hkeep⟩ := releaseAll_counted (k := k.modify q _) ((hM.nodup q).filter _) hcount h
  have hchildren : k'.memory.children = Function.update k.memory.children q
      ((k.memory.children q).filter fun c => (k.heap c).pid ≠ p) := by
    rw [hk']
    funext x
    by_cases hx : x = q
    · subst hx
      simp [memory, modify]
    · simp [memory, modify, hx]
  have hsub : ∀ x c, c ∈ k'.memory.children x → c ∈ k.memory.children x ∧
      (x = q → (k.heap c).pid ≠ p) := by
    intro x c hc
    rw [hchildren] at hc
    by_cases hx : x = q
    · subst hx
      rw [Function.update_self, List.mem_filter, decide_eq_true_iff] at hc
      exact ⟨hc.1, fun _ => hc.2⟩
    · rw [Function.update_of_ne hx] at hc
      exact ⟨hc, fun he => absurd he hx⟩
  have hcreated : k'.memory.created = k.memory.created := by rw [hk']; rfl
  refine ⟨?_, fun x => ?_, fun x c hc => ?_, fun x x' c hc hc' =>
    hM.unique x x' c (hsub x c hc).1 (hsub x' c hc').1⟩
  · rw [hk']
    have hvm : ∀ x, ((k.modify q fun p' => { p' with
        children := p'.children.filter fun c => (k.heap c).pid ≠ p }).heap x).inner.procVm =
        (k.heap x).inner.procVm := fun x => by
      by_cases hx : x = q
      · subst hx
        simp [modify]
      · simp [modify, hx]
    unfold memory
    simp only [modify] at hvm ⊢
    simp only [hvm]
  · rw [hchildren]
    by_cases hx : x = q
    · subst hx
      rw [Function.update_self]
      exact (hM.nodup x).filter _
    · rw [Function.update_of_ne hx]
      exact hM.nodup x
  · obtain ⟨hold, hpid⟩ := hsub x c hc
    obtain ⟨harcs, hle⟩ := hM.arcs x c hold
    refine ⟨?_, hcreated ▸ hle⟩
    show 2 ≤ k'.strong c
    rw [hkeep c fun hmem => ?_]
    · exact harcs
    · obtain ⟨hq, he⟩ := List.mem_filter.mp hmem
      exact hpid (hM.unique x q c hold hq) (of_decide_eq_true he)

theorem leaveParent_memory (hM : k.memory.Counted) (h : k.leaveParent B r = .ok k') :
    Rewired k.memory k'.memory := by
  simp only [leaveParent] at h
  split at h
  · split_ifs at h
    · simp only [bind_eq_ok, pure_eq_ok] at h
      obtain ⟨k₁, hrem, rfl⟩ := h
      rw [setParents_memory]
      exact removeChild_memory hM hrem
    · cases h
      rw [setParents_memory]
      exact ⟨rfl, hM⟩
  · cases h
    exact ⟨rfl, hM⟩

/-! ### The memory after a call -/

theorem memory_modify_vm {f : ProcessInner → ProcessInner} {o : Option ProcessVm}
    (hvm : (f (k.heap r).inner).procVm = o)
    (hchildren : (f (k.heap r).inner).children = (k.heap r).inner.children) :
    (k.modify r f).memory = { k.memory with procVm := Function.update k.memory.procVm r o } := by
  have hvms : (k.modify r f).memory.procVm = Function.update k.memory.procVm r o := by
    funext q
    by_cases hq : q = r
    · subst hq
      simp [memory, modify, hvm]
    · simp [memory, modify, hq]
  have hkids : (k.modify r f).memory.children = k.memory.children := by
    funext q
    by_cases hq : q = r
    · subst hq
      simp [memory, modify, hchildren]
    · simp [memory, modify, hq]
  show Memory.mk (k.modify r f).memory.procVm (k.modify r f).memory.children _ _ _ _ _ = _
  rw [hvms, hkids]
  rfl

theorem addProc_fresh (hfree : k.processes p = none) (h : k.addProc B p r = .ok k') :
    k'.memory = k.memory := by
  rw [addProc, hfree] at h
  cases h
  rfl

theorem Rewired.fields {M M' : Memory} (h : Rewired M M') : M'.procVm = M.procVm ∧
    M'.created = M.created ∧ M'.spaces = M.spaces ∧ M'.alloc = M.alloc ∧ M'.phys = M.phys := by
  obtain ⟨h, -⟩ := h
  rw [h]
  exact ⟨rfl, rfl, rfl, rfl, rfl⟩

theorem killProcess_memory {ret : Int64} (hM : k.memory.Counted)
    (h : k.killProcess B r ret = .ok k') : ∃ M, Rewired k.memory M ∧
      (k.memory.procVm r = none ∧
          k'.memory = { M with procVm := Function.update M.procVm r none } ∨
        ∃ vm v, k.memory.procVm r = some vm ∧ vm.drop B (k.memory.vm vm.pageTable) = .ok v ∧
          k'.memory =
            { M.setVm vm.pageTable v with procVm := Function.update M.procVm r none }) := by
  simp only [killProcess, bind_eq_ok, pure_eq_ok] at h
  obtain ⟨k₁, hleave, k₂, hdrop, rfl⟩ := h
  have hrewired := leaveParent_memory hM hleave
  obtain ⟨hvms, -, hspaces, halloc, hphys⟩ := hrewired.fields
  rw [memory_modify_vm rfl rfl]
  have hvm : (k₁.heap r).inner.procVm = k.memory.procVm r := congrFun hvms r
  refine ⟨k₁.memory, hrewired, ?_⟩
  unfold dropVm at hdrop
  split at hdrop
  · rename_i vm hsome
    simp only [bind_eq_ok, pure_eq_ok] at hdrop
    obtain ⟨v, hv, rfl⟩ := hdrop
    have hsame : k₁.vm vm.pageTable = k.memory.vm vm.pageTable := by
      show k₁.memory.vm vm.pageTable = _
      unfold Memory.vm
      rw [hspaces, halloc, hphys]
    rw [hsame] at hv
    exact Or.inr ⟨vm, v, hvm.symm.trans hsome, hv, rfl⟩
  · rename_i hnone
    cases hdrop
    exact Or.inl ⟨hvm.symm.trans hnone, rfl⟩

theorem kill_memory {ret : Int64} (h : k.kill B p ret = .ok k') : k' = k ∨
    ∃ r k₁, k.getProc p = some r ∧ k.killProcess B r ret = .ok k₁ ∧ k'.memory = k₁.memory := by
  unfold kill at h
  split at h
  · rename_i r hr
    obtain ⟨k₁, hkill, h⟩ := bind_eq_ok.mp h
    refine Or.inr ⟨r, k₁, hr, hkill, ?_⟩
    split at h
    · cases h
      exact wakeAll_memory
    · cases h
      rfl
  · cases h
    exact Or.inl rfl

theorem brk_memory {addr res : Option ℕ} (h : Proc.brk addr k = .ok (res, k')) :
    ∃ r vm v, k.current = .ok r ∧ k.memory.procVm r = some vm ∧
      Heap.brk addr (k.memory.vm vm.pageTable) = (res, v) ∧
      k'.memory = k.memory.setVm vm.pageTable v := by
  simp only [Proc.brk, bind_eq_ok, pure_eq_ok] at h
  obtain ⟨r, hr, vm, hvm, h⟩ := h
  obtain ⟨hres, rfl⟩ := Prod.mk.inj h
  exact ⟨r, vm, _, hr, vm_ok hvm, Prod.ext hres rfl, rfl⟩

theorem pageFault_memory {addr : ℕ} {violation : Bool}
    (h : Proc.pageFault B addr violation k = .ok k') :
    ∃ r vm ok vm' v, k.current = .ok r ∧ k.memory.procVm r = some vm ∧
      vm.handlePageFault B addr (k.processor != KERNEL_PID) (k.memory.vm vm.pageTable) =
        .ok (ok, vm', v) ∧
      k'.memory = { k.memory.setVm vm.pageTable v with
        procVm := Function.update k.memory.procVm r (some vm') } := by
  obtain ⟨⟨ok, k₁⟩, hfault, h⟩ := bind_eq_ok.mp h
  cases ok with
  | false => cases h
  | true =>
      cases h
      unfold handlePageFault at hfault
      split_ifs at hfault
      · cases hfault
      · simp only [bind_eq_ok, pure_eq_ok] at hfault
        obtain ⟨r, hr, vm, hvm, ⟨ok, vm', v⟩, hv, hlast⟩ := hfault
        obtain ⟨rfl, rfl⟩ := Prod.mk.inj hlast
        exact ⟨r, vm, _, vm', v, hr, vm_ok hvm, hv, memory_modify_vm rfl rfl⟩

theorem vfork_memory (hfree : k.processes ((k.created + 1) % PIDS) = none)
    (hle : ∀ r, k.current = .ok r → r ≤ k.created) (h : k.vfork B = .ok k') :
    ∃ r vm childVm n v, k.current = .ok r ∧ k.memory.procVm r = some vm ∧
      vm.fork B n (k.memory.vm vm.pageTable) = .ok (childVm, v) ∧
      k'.memory.procVm = Function.update k.memory.procVm (k.created + 1) (some childVm) ∧
      k'.memory.children = Function.update (Function.update k.memory.children (k.created + 1) [])
        r (k.memory.children r ++ [k.created + 1]) ∧
      k'.memory.strong = Function.update k.strong (k.created + 1) 2 ∧
      k'.memory.created = k.created + 1 ∧
      k'.memory.spaces = Function.update k.spaces vm.pageTable v.space ∧
      k'.memory.alloc = v.alloc ∧ k'.memory.phys = v.phys := by
  simp only [vfork, vforkProcess, vforkInner, bind_eq_ok, pure_eq_ok] at h
  obtain ⟨r, hr, ⟨c, k₃⟩, ⟨⟨child, k₁⟩, ⟨vm, hvm, n, -, ⟨childVm, v⟩, hfork, offset, -, ctx, -, hin⟩,
    h₃⟩, k₄, hadd, rfl⟩ := h
  obtain ⟨rfl, rfl⟩ := Prod.mk.inj hin
  obtain ⟨rfl, rfl⟩ := Prod.mk.inj h₃
  have hrc : r ≠ k.created + 1 := Nat.ne_of_lt (Nat.lt_succ_of_le (hle r hr))
  have hmem := addProc_fresh (by simpa [modify, setVm, hrc.symm] using hfree) hadd
  have hpush : ∀ p, (k₄.pushReady p).memory = k₄.memory := fun _ => rfl
  refine ⟨r, vm, childVm, n, v, hr, vm_ok hvm, hfork, ?_⟩
  rw [hpush, hmem]
  refine ⟨funext fun x => ?_, funext fun x => ?_, rfl, rfl, rfl, rfl, rfl⟩
  · by_cases hx : x = k.created + 1
    · subst hx
      simp [memory, modify, setVm, hrc.symm]
    · by_cases hxr : x = r
      · subst hxr
        simp [memory, modify, setVm, hrc, ProcessInner.pause]
      · simp [memory, modify, setVm, hx, hxr]
  · by_cases hxr : x = r
    · subst hxr
      simp [memory, modify, setVm, hrc, ProcessInner.pause]
    · by_cases hx : x = k.created + 1
      · subst hx
        simp [memory, modify, setVm, hrc.symm]
      · simp [memory, modify, setVm, hx, hxr]

/-- The page table of a new program: that of the kernel process, in a frame of its own. -/
def copySpace (k : Kernel BootInfoFrameAllocator) (i : SpaceId) (frame : Frame)
    (a : BootInfoFrameAllocator) : Vm BootInfoFrameAllocator where
  space := { table := (k.spaces i).table, addr := frame, usingCount := 1, heapEnd := HEAP_START }
  alloc := a
  phys := Function.update k.phys frame (k.phys (k.spaces i).addr)

theorem spawn_memory {elf : ElfFile} {name : String} {parent : Option Weak}
    {data : Option ProcessData} (hfree : k.processes ((k.created + 1) % PIDS) = none)
    (h : k.spawn B elf name parent data = .ok (p, k')) :
    ∃ q vm₀ frame a vm v, k.getProc KERNEL_PID = some q ∧ k.memory.procVm q = some vm₀ ∧
      allocateFrame k.alloc = (some frame, a) ∧
      (ProcessVm.new (k.created + 1)).loadElf B elf (k.copySpace vm₀.pageTable frame a) =
        .ok (vm, v) ∧
      k'.memory.procVm = Function.update k.memory.procVm (k.created + 1) (some vm) ∧
      k'.memory.children = Function.update k.memory.children (k.created + 1) [] ∧
      k'.memory.strong = Function.update k.strong (k.created + 1) 1 ∧
      k'.memory.created = k.created + 1 ∧
      k'.memory.spaces = Function.update k.spaces (k.created + 1) v.space ∧
      k'.memory.alloc = v.alloc ∧ k'.memory.phys = v.phys := by
  simp only [spawn] at h
  split at h
  · cases h
  rename_i q hq
  simp only [bind_eq_ok, pure_eq_ok] at h
  obtain ⟨⟨i, k₁⟩, hclone, k₃, hload, k₄, hadd, h⟩ := h
  obtain ⟨-, rfl⟩ := Prod.mk.inj h
  simp only [clonePageTable, bind_eq_ok] at hclone
  obtain ⟨vm₀, hvm₀, hclone⟩ := hclone
  split at hclone
  · cases hclone
  rename_i frame a ha
  cases hclone
  simp only [loadElf, bind_eq_ok, pure_eq_ok] at hload
  obtain ⟨vm₁, hvm₁, ⟨vm, v⟩, hload, rfl⟩ := hload
  have hnew : vm₁ = ProcessVm.new (k.created + 1) := by
    have hsome := vm_ok hvm₁
    simp [modify, newProcess, ProcessInner.pause] at hsome
    exact hsome.symm
  subst hnew
  have hmem := addProc_fresh (by simpa [modify, setVm, newProcess] using hfree) hadd
  have hpush : ∀ p, (k₄.pushReady p).memory = k₄.memory := fun _ => rfl
  refine ⟨q, vm₀, frame, a, vm, v, hq, vm_ok hvm₀, ha, ?_, ?_⟩
  · simpa [modify, newProcess, ProcessVm.new, Kernel.vm, copySpace] using hload
  rw [hpush, hmem]
  refine ⟨funext fun x => ?_, funext fun x => ?_, rfl, rfl, ?_, rfl, rfl⟩
  · by_cases hx : x = k.created + 1
    · subst hx
      simp [memory, modify, setVm, newProcess, ProcessInner.initStackFrame]
    · simp [memory, modify, setVm, newProcess, hx]
  · by_cases hx : x = k.created + 1
    · subst hx
      simp [memory, modify, setVm, newProcess, ProcessInner.initStackFrame, ProcessInner.pause]
    · simp [memory, modify, setVm, newProcess, hx]
  · exact Function.update_idem _ _ _

end Kernel

end Ysos

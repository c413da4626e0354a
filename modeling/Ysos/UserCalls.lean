import Ysos.ReadAll
import Ysos.Resource
import Ysos.Address

/-! # Arguments of `brk` and `read`

`sys_brk` makes an address of its argument with `VirtAddr::new`, which panics when the address is not
canonical.  `ResourceSet::read` passes the buffer of the user on to a resource; standard input stores a key in
its first byte.

* `File.read_panics_iff`: when reading a file panics.
* `brkReturns_iff`, `readReturns_iff`: when the two calls return.
* `user_arguments_panic`: an address and an empty buffer that stop the kernel. -/

namespace Ysos

open Runs

/-! ### Panics of reading a file -/

namespace Fat16

namespace Fat16Impl

variable {v : Fat16Impl} {entry : DirEntry} {c : Cluster} {stop : Stop}

theorem getNextCluster_fuel {cluster : ℕ} : v.getNextCluster cluster ≠ .error .outOfFuel := by
  rw [getNextCluster]
  split_ifs
  · rintro ⟨⟩
  · intro h
    rcases bind_eq_error.mp h with h | ⟨block, -, h⟩
    · cases hblock : v.inner.readBlock (v.fatStart + cluster * 2 / v.bpb.bytesPerSector) with
      | error e =>
          rw [hblock] at h
          cases h
      | ok block =>
          rw [hblock] at h
          cases h
    · split at h
      · cases h
      · cases h

/-- Following a chain ends with the first link that cannot be followed. -/
theorem followClusters_of_link : ∀ {n i : ℕ} {c : Cluster}, i ≤ n →
    v.linkStop c i = some stop → v.followClusters n c = .error stop
  | _, 0, _, _, h => nomatch h
  | 0, i + 1, _, hi, _ => absurd hi (Nat.not_succ_le_zero i)
  | n + 1, i + 1, c, hi, h => by
      rw [linkStop] at h
      rw [followClusters]
      cases i with
      | zero =>
          rw [clusterAt, Option.bind_some, linkError] at h
          split_ifs at h ⊢
          cases hnext : v.getNextCluster (c.val % 2 ^ 16) with
          | error stop' =>
              rw [hnext] at h
              cases h
              rfl
          | ok next =>
              rw [hnext] at h
              cases h
      | succ i =>
          rw [clusterAt, Option.bind_assoc, nextCluster?] at h
          split_ifs at h ⊢
          · cases h
          · cases hnext : v.getNextCluster (c.val % 2 ^ 16) with
            | error stop' =>
                rw [hnext] at h
                cases h
            | ok next =>
                rw [hnext] at h
                cases next with
                | none => cases h
                | some next => exact followClusters_of_link (i := i + 1) (Nat.le_of_succ_le_succ hi) h

theorem link_of_followClusters (hstop : ∀ e, stop ≠ .err e) : ∀ {n : ℕ} {c : Cluster},
    v.followClusters n c = .error stop → ∃ i ≤ n, v.linkStop c i = some stop
  | 0, _, h => nomatch h
  | n + 1, c, h => by
      rw [followClusters] at h
      split_ifs at h with h0
      · cases h
        exact absurd rfl (hstop _)
      · rcases bind_eq_error.mp h with hnext | ⟨next, hnext, h⟩
        · refine ⟨1, Nat.succ_le_succ (Nat.zero_le n), ?_⟩
          rw [linkStop, clusterAt, Option.bind_some, linkError, if_neg h0, hnext]
        · cases next with
          | none =>
              cases h
              exact absurd rfl (hstop _)
          | some next =>
              obtain ⟨i, hi, hlink⟩ := link_of_followClusters hstop h
              cases i with
              | zero => cases hlink
              | succ i =>
                  refine ⟨i + 2, Nat.succ_le_succ hi, ?_⟩
                  rw [linkStop, clusterAt, Option.bind_assoc, nextCluster?, if_neg h0, hnext]
                  exact hlink

theorem linkStop_fuel {i : ℕ} : v.linkStop c i ≠ some .outOfFuel := by
  cases i with
  | zero => exact nofun
  | succ i =>
      intro h
      obtain ⟨c', -, hlink⟩ := Option.bind_eq_some_iff.mp h
      rw [linkError] at hlink
      split_ifs at hlink
      cases hnext : v.getNextCluster (c'.val % 2 ^ 16) with
      | ok next =>
          rw [hnext] at hlink
          cases hlink
      | error stop =>
          rw [hnext] at hlink
          cases hlink
          exact getNextCluster_fuel hnext

theorem stopAt_fuel {q : ℕ} : v.stopAt entry q ≠ some .outOfFuel := by
  rw [stopAt]
  split
  · rw [sectorStop]
    split
    · rintro ⟨⟩
    · rintro ⟨⟩
  · exact linkStop_fuel

end Fat16Impl

namespace File

variable {f : File} {buf : List UInt8}

/-- The call wants a byte, and panics on the way to the cluster of the offset, or at the first byte that
it cannot read. -/
def Panics (f : File) (buf : List UInt8) : Prop :=
  0 < f.wanted buf ∧ (f.handle.clusterSize = 0 ∨
    (∃ i ≤ f.offset / f.handle.clusterSize, f.handle.linkStop f.entry.cluster i = some .panic) ∨
    ∃ q, f.offset ≤ q ∧ q < f.offset + f.wanted buf ∧
      (∀ p, f.offset ≤ p → p < q → f.handle.ByteReads f.entry p) ∧
      ¬ f.handle.ByteReads f.entry q ∧ f.handle.stopAt f.entry q = some .panic)

theorem ensureCorrectCluster_panic_iff (hcs : f.handle.clusterSize ≠ 0) (stop : Stop)
    (hstop : ∀ e, stop ≠ .err e) : f.ensureCorrectCluster = .error stop ↔
      ∃ i ≤ f.offset / f.handle.clusterSize, f.handle.linkStop f.entry.cluster i = some stop := by
  rw [ensureCorrectCluster, if_neg hcs]
  simp only
  split_ifs with h0
  · refine iff_of_false (by rintro ⟨⟩) ?_
    rintro ⟨i, hi, hlink⟩
    obtain rfl : i = 0 := by omega
    cases hlink
  · constructor
    · intro h
      rcases bind_eq_error.mp h with h | ⟨c, -, h⟩
      · exact Fat16Impl.link_of_followClusters hstop h
      · cases h
    · rintro ⟨i, hi, hlink⟩
      rw [Fat16Impl.followClusters_of_link hi hlink]
      rfl

/-- The byte where a call stops is the one where it panics. -/
theorem Stops.panics {v : Fat16Impl} {entry : DirEntry} {b offset goal q q' : ℕ} {o : ReadOutcome}
    (h : Stops v entry buf b offset goal q o) (hle : offset ≤ q') (hlt : q' < goal)
    (hreads : ∀ p, offset ≤ p → p < q' → v.ByteReads entry p) (hnot : ¬ v.ByteReads entry q')
    (hstop : v.stopAt entry q' = some .panic) : o.result = .error .panic := by
  rcases lt_trichotomy q q' with hq | rfl | hq
  · have hread := hreads q h.le hq
    rcases h.outcome with ⟨-, -, rfl | hnone⟩ | ⟨-, hfails, -⟩
    · exact absurd (hq.trans hlt) (lt_irrefl _)
    · exact absurd hnone hread.stopAt_ne_none
    · exact absurd hread hfails
  · rcases h.outcome with ⟨-, -, rfl | hnone⟩ | ⟨-, -, -, stop, hstop', hresult⟩
    · exact absurd hlt (lt_irrefl _)
    · cases hnone.symm.trans hstop
    · cases hstop.symm.trans hstop'
      exact hresult
  · exact absurd (h.reads q' hle hq) hnot

theorem read_of_ensure {stop : Stop} (hwant : 0 < f.wanted buf)
    (h : f.ensureCorrectCluster = .error stop) : f.read buf = ⟨.error stop, f, buf, []⟩ := by
  unfold wanted at hwant
  have hend : ¬ f.offset ≥ f.entry.size := by omega
  rw [read, if_neg hend]
  simp only [if_neg hwant.ne', h]

/-- Before the byte where a call panics there are no errors. -/
theorem Panics.ensure (h : f.Panics buf) {stop : Stop} (hensure : f.ensureCorrectCluster = .error stop) :
    stop = .panic := by
  obtain ⟨-, h⟩ := h
  by_cases hcs : f.handle.clusterSize = 0
  · rw [ensureCorrectCluster, if_pos hcs] at hensure
    cases hensure
    rfl
  · have hpanic := ensureCorrectCluster_panic_iff hcs .panic (by rintro e ⟨⟩)
    rcases h.resolve_left hcs with hlink | ⟨q, hle, -, hreads, -, hstop⟩
    · cases hensure.symm.trans (hpanic.mpr hlink)
      rfl
    · cases hat : f.handle.clusterAt (f.offset / f.handle.clusterSize) f.entry.cluster with
      | some c =>
          have hok := (ensureCorrectCluster_ok_iff (Nat.pos_of_ne_zero hcs)).mpr ⟨c, rfl, hat⟩
          cases hensure.symm.trans hok
      | none =>
          rcases hle.eq_or_lt with rfl | hlt
          · rw [Fat16Impl.stopAt, hat] at hstop
            cases hensure.symm.trans (hpanic.mpr ⟨_, le_rfl, hstop⟩)
            rfl
          · obtain ⟨c, hc, -⟩ := hreads f.offset le_rfl hlt
            cases hat.symm.trans hc

theorem read_panics (h : f.Panics buf) : (f.read buf).result = .error .panic := by
  rcases f.read_cases buf with ⟨h0, -⟩ | ⟨-, ⟨stop, hensure, hread⟩ | ⟨hat, q, hq⟩⟩
  · exact absurd h0 h.1.ne'
  · rw [hread, h.ensure hensure]
  · obtain ⟨hwant, h⟩ := h
    by_cases hcs : f.handle.clusterSize = 0
    · rw [read_of_ensure hwant (if_pos hcs)]
    · rcases h.resolve_left hcs with hlink | ⟨q', hle, hlt, hreads, hnot, hstop⟩
      · have hpanic := (ensureCorrectCluster_panic_iff hcs .panic nofun).mpr hlink
        rw [read_of_ensure hwant hpanic]
      · exact hq.panics hle hlt hreads hnot hstop

/-- A call that does not panic returns an error, or how much of the buffer it has filled. -/
theorem read_returns (h : ¬ f.Panics buf) : (∃ n ≤ buf.length, (f.read buf).result = .ok n) ∨
    ∃ e, (f.read buf).result = .error (.err e) := by
  rcases f.read_cases buf with ⟨-, hread⟩ | ⟨hwant, ⟨stop, hensure, hread⟩ | ⟨hat, q, hq⟩⟩
  · exact Or.inl ⟨0, Nat.zero_le _, by rw [hread]⟩
  · cases stop with
    | err e => exact Or.inr ⟨e, by rw [hread]⟩
    | panic =>
        refine absurd ⟨hwant, ?_⟩ h
        by_cases hcs : f.handle.clusterSize = 0
        · exact Or.inl hcs
        · exact Or.inr (Or.inl ((ensureCorrectCluster_panic_iff hcs .panic (by rintro e ⟨⟩)).mp hensure))
    | outOfFuel =>
        by_cases hcs : f.handle.clusterSize = 0
        · rw [ensureCorrectCluster, if_pos hcs] at hensure
          cases hensure
        · obtain ⟨i, -, hlink⟩ := (ensureCorrectCluster_panic_iff hcs .outOfFuel (by rintro e ⟨⟩)).mp hensure
          exact absurd hlink Fat16Impl.linkStop_fuel
  · rcases hq.outcome with ⟨hok, -, -⟩ | ⟨hlt, hnot, -, stop, hstop, hresult⟩
    · have hgoal := hq.le_goal
      refine Or.inl ⟨_, ?_, hok⟩
      have : f.wanted buf ≤ buf.length := min_le_left _ _
      omega
    · cases stop with
      | err e => exact Or.inr ⟨e, hresult⟩
      | panic => exact absurd ⟨hwant, Or.inr (Or.inr ⟨q, hq.le, hlt, hq.reads, hnot, hstop⟩)⟩ h
      | outOfFuel => exact absurd hstop Fat16Impl.stopAt_fuel

end File

end Fat16

open Fat16

/-! ### `sys_brk` -/

section Brk

variable {α : Type} [FrameAllocator α]

/-- The address space of the current process. -/
def Kernel.currentVm (k : Kernel α) : Except Panic ProcessVm := do
  (k.heap (← k.current)).inner.vm .brk

/-- `new_heap_end` -/
def SyscallArgs.newHeapEnd (args : SyscallArgs) : Except Panic (Option ℕ) :=
  if args.arg0 = 0 then .ok none else some <$> virtAddrNew args.arg0.toNat

def sysBrk (args : SyscallArgs) (k : Kernel α) : Except Panic (UInt64 × Kernel α) := do
  match ← Proc.brk (← args.newHeapEnd) k with
  | (some newHeapEnd, k) => return (UInt64.ofNat newHeapEnd, k)
  | (none, k) => return (0xffffffffffffffff, k)

/-- The call returns the end of the heap or `usize::MAX`. -/
def BrkReturns (args : SyscallArgs) (k : Kernel α) (vm : ProcessVm) : Prop :=
  ∃ ret k', sysBrk args k = .ok (ret, k') ∧
    (ret = UInt64.ofNat (k'.spaces vm.pageTable).heapEnd ∨ ret = 0xffffffffffffffff)

variable {k : Kernel α} {vm : ProcessVm}

theorem Proc.brk_eq (h : k.currentVm = .ok vm) (addr : Option ℕ) :
    Proc.brk addr k = .ok ((Heap.brk addr (k.vm vm.pageTable)).1,
      k.setVm vm.pageTable (Heap.brk addr (k.vm vm.pageTable)).2) := by
  obtain ⟨r, hr, hvm⟩ := bind_eq_ok.mp h
  rw [Proc.brk, hr]
  simp only [bind, Except.bind, hvm]
  rfl

theorem Heap.brk_some {newEnd : Option ℕ} {v : Vm α} {e : ℕ} (h : (Heap.brk newEnd v).1 = some e) :
    (Heap.brk newEnd v).2.space.heapEnd = e := by
  generalize hb : Heap.brk newEnd v = out at h ⊢
  have hout : Outcome v newEnd out := hb ▸ brk_outcome newEnd v
  cases hout <;> cases h <;> rfl

/-- The call panics only in `VirtAddr::new`. -/
theorem brkReturns_iff (args : SyscallArgs) (h : k.currentVm = .ok vm) :
    BrkReturns args k vm ↔ args.arg0 = 0 ∨ canonical args.arg0.toNat = true := by
  have hreturns : ∀ addr, args.newHeapEnd = .ok addr → BrkReturns args k vm := by
    intro addr haddr
    have hbrk := Proc.brk_eq h addr
    cases hret : (Heap.brk addr (k.vm vm.pageTable)).1 with
    | none =>
        rw [hret] at hbrk
        exact ⟨_, _, bind_eq_ok.mpr ⟨addr, haddr, bind_eq_ok.mpr ⟨_, hbrk, rfl⟩⟩, Or.inr rfl⟩
    | some e =>
        rw [hret] at hbrk
        refine ⟨_, _, bind_eq_ok.mpr ⟨addr, haddr, bind_eq_ok.mpr ⟨_, hbrk, rfl⟩⟩, Or.inl ?_⟩
        simp [Kernel.setVm, Heap.brk_some hret]
  constructor
  · rintro ⟨ret, k', hsys, -⟩
    by_contra hno
    obtain ⟨h0, hcan⟩ := not_or.mp hno
    obtain ⟨addr, haddr, -⟩ := bind_eq_ok.mp hsys
    rw [SyscallArgs.newHeapEnd, if_neg h0, virtAddrNew, if_neg hcan] at haddr
    cases haddr
  · rintro (h0 | hcan)
    · exact hreturns none (if_pos h0)
    · by_cases h0 : args.arg0 = 0
      · exact hreturns none (if_pos h0)
      · refine hreturns (some args.arg0.toNat) ?_
        rw [SyscallArgs.newHeapEnd, if_neg h0, virtAddrNew, if_pos hcan]
        rfl

end Brk

/-! ### `ResourceSet::read` -/

/-- `try_pop_key`, on the keys in the buffer, the oldest first. -/
def tryPopKey : List UInt8 → Option UInt8 × List UInt8
  | [] => (none, [])
  | key :: keys => (some key, keys)

/-- What a read leaves behind: the result, the resource or the set of resources, the buffer and the keys. -/
structure ReadEnd (ρ β : Type) where
  result : Fs ρ
  resource : β
  buf : List UInt8
  keys : List UInt8

/-- `Resource::read`. -/
def Resource.read (r : Resource File) (buf keys : List UInt8) : ReadEnd (Option ℕ) (Resource File) :=
  match r with
  | .console .stdin =>
      match tryPopKey keys with
      | (some ch, keys) =>
          if buf = [] then ⟨.error .panic, r, buf, keys⟩ else ⟨.ok (some 1), r, buf.set 0 ch, keys⟩
      | (none, keys) => ⟨.ok (some 0), r, buf, keys⟩
  | .console _ => ⟨.ok none, r, buf, keys⟩
  | .file handle =>
      let o := handle.read buf
      match o.result with
      | .ok bytesRead => ⟨.ok (some bytesRead), .file o.file, o.buf, keys⟩
      | .error (.err _) => ⟨.ok none, .file o.file, o.buf, keys⟩
      | .error stop => ⟨.error stop, .file o.file, o.buf, keys⟩
  | .null => ⟨.ok (some 0), r, buf, keys⟩

/-- `ResourceSet::read`; the resource is changed in its place. -/
def ResourceSet.read (s : ResourceSet File) (fd : UInt8) (buf keys : List UInt8) :
    ReadEnd ℤ (ResourceSet File) :=
  match s.handles.lookup fd with
  | none => ⟨.ok (-1), s, buf, keys⟩
  | some r =>
      let o := r.read buf keys
      let s := { s with handles := s.handles.replace fd o.resource }
      match o.result with
      | .ok (some count) => ⟨.ok count, s, o.buf, o.keys⟩
      | .ok none => ⟨.ok (-1), s, o.buf, o.keys⟩
      | .error stop => ⟨.error stop, s, o.buf, o.keys⟩

/-- The call returns `-1` or a count that fits the buffer, and takes a key only to store it. -/
def ReadReturns (s : ResourceSet File) (fd : UInt8) (buf keys : List UInt8) : Prop :=
  (∃ n, (s.read fd buf keys).result = .ok n ∧ (n = -1 ∨ 0 ≤ n ∧ n ≤ buf.length)) ∧
    ((s.read fd buf keys).keys = keys ∨
      ∃ key, keys = key :: (s.read fd buf keys).keys ∧ (s.read fd buf keys).buf.head? = some key)

/-- What the resource can do with the buffer: standard input needs room for a key that is there, and a file
must not panic. -/
def Resource.Takes (buf keys : List UInt8) : Resource File → Prop
  | .console .stdin => buf = [] → keys = []
  | .file handle => ¬ handle.Panics buf
  | _ => True

/-- Standard input pops a key and has no place for it, or the file panics. -/
theorem Resource.read_panics {r : Resource File} {buf keys : List UInt8} (h : ¬ r.Takes buf keys) :
    (r.read buf keys).result = .error .panic := by
  cases r with
  | console stdio =>
      cases stdio with
      | stdin =>
          obtain ⟨rfl, hkeys⟩ := Classical.not_imp.mp h
          cases keys with
          | nil => exact absurd rfl hkeys
          | cons key keys => rfl
      | stdout => exact absurd trivial h
      | stderr => exact absurd trivial h
  | file handle =>
      have hpanic := File.read_panics (not_not.mp h)
      simp only [read, hpanic]
  | null => exact absurd trivial h

/-- What a read of a resource returns otherwise. -/
structure Resource.ReadsWell (r : Resource File) (buf keys : List UInt8) : Prop where
  returns : ∃ count : Option ℕ, (r.read buf keys).result = .ok count ∧ ∀ n ∈ count, n ≤ buf.length
  stores : (r.read buf keys).keys = keys ∨
    ∃ key, keys = key :: (r.read buf keys).keys ∧ (r.read buf keys).buf.head? = some key

theorem Resource.readsWell {r : Resource File} {buf keys : List UInt8} (h : r.Takes buf keys) :
    r.ReadsWell buf keys := by
  cases r with
  | console stdio =>
      cases stdio with
      | stdin =>
          cases keys with
          | nil => exact ⟨⟨some 0, rfl, by simp⟩, Or.inl rfl⟩
          | cons key keys =>
              cases buf with
              | nil => exact absurd (h rfl) (List.cons_ne_nil _ _)
              | cons b buf => exact ⟨⟨some 1, rfl, by simp⟩, Or.inr ⟨key, rfl, rfl⟩⟩
      | stdout => exact ⟨⟨none, rfl, nofun⟩, Or.inl rfl⟩
      | stderr => exact ⟨⟨none, rfl, nofun⟩, Or.inl rfl⟩
  | file handle =>
      rcases File.read_returns h with ⟨n, hn, hok⟩ | ⟨e, herr⟩
      · refine ⟨⟨some n, ?_, fun n' hn' => Option.some.inj hn' ▸ hn⟩, Or.inl ?_⟩ <;>
          simp only [read, hok]
      · refine ⟨⟨none, ?_, nofun⟩, Or.inl ?_⟩ <;> simp only [read, herr]
  | null => exact ⟨⟨some 0, rfl, by simp⟩, Or.inl rfl⟩

theorem readReturns_iff (s : ResourceSet File) (fd : UInt8) (buf keys : List UInt8) :
    ReadReturns s fd buf keys ↔ ∀ r ∈ s.handles.lookup fd, r.Takes buf keys := by
  unfold ReadReturns ResourceSet.read
  cases hr : s.handles.lookup fd with
  | none => exact iff_of_true ⟨⟨-1, rfl, Or.inl rfl⟩, Or.inl rfl⟩ nofun
  | some r =>
      simp only [Option.mem_some_iff, forall_eq']
      constructor
      · rintro ⟨⟨n, hn, -⟩, -⟩
        by_contra hno
        simp only [Resource.read_panics hno] at hn
        cases hn
      · intro h
        obtain ⟨⟨count, hcount, hle⟩, hkeys⟩ := Resource.readsWell h
        cases count with
        | none =>
            simp only [hcount]
            exact ⟨⟨-1, rfl, Or.inl rfl⟩, hkeys⟩
        | some n =>
            simp only [hcount]
            exact ⟨⟨n, rfl, Or.inr ⟨Int.natCast_nonneg n, Int.ofNat_le.mpr (hle n rfl)⟩⟩, hkeys⟩

/-- **Arguments of the user.**  A process makes a system call with any arguments.  `sys_brk` returns the end of
the heap or `usize::MAX` exactly when the argument is zero or a canonical address.  `ResourceSet::read` returns
`-1` or a count that fits the buffer, and takes only keys that it stores, exactly when the descriptor is not
that of standard input with a waiting key and an empty buffer, or of a file that panics on the way to the first
byte that it cannot read. -/
theorem user_arguments_iff {α : Type} [FrameAllocator α] (args : SyscallArgs) (k : Kernel α)
    (s : ResourceSet File) (fd : UInt8) (buf keys : List UInt8) :
    (∀ vm, k.currentVm = .ok vm →
      (BrkReturns args k vm ↔ args.arg0 = 0 ∨ canonical args.arg0.toNat = true)) ∧
    (ReadReturns s fd buf keys ↔ ∀ r ∈ s.handles.lookup fd, r.Takes buf keys) :=
  ⟨fun _ h => brkReturns_iff args h, readReturns_iff s fd buf keys⟩

theorem smallMachine_currentVm : ∃ vm, (boot smallMachine).currentVm = .ok vm := ⟨_, rfl⟩

theorem user_arguments_iff_example : ∃ vm, (boot smallMachine).currentVm = .ok vm ∧
    BrkReturns ⟨67, 0, 0, 0⟩ (boot smallMachine) vm ∧
    ReadReturns .default 0 [0] [0x61] := by
  obtain ⟨vm, hvm⟩ := smallMachine_currentVm
  obtain ⟨hbrk, hread⟩ := user_arguments_iff ⟨67, 0, 0, 0⟩ (boot smallMachine) .default 0 [0] [0x61]
  refine ⟨vm, hvm, (hbrk vm hvm).mpr (Or.inl rfl), hread.mpr fun r hr => ?_⟩
  cases Option.some.inj hr
  exact nofun

/-- The first address that is not canonical, and a key that has nowhere to go. -/
theorem user_arguments_panic :
    (¬ ∀ (args : SyscallArgs) (k : Kernel BootInfoFrameAllocator) (vm : ProcessVm),
      k.currentVm = .ok vm → BrkReturns args k vm) ∧
    ¬ ∀ (s : ResourceSet File) (fd : UInt8) (buf keys : List UInt8), ReadReturns s fd buf keys := by
  constructor
  · intro h
    obtain ⟨vm, hvm⟩ := smallMachine_currentVm
    have hreturns := (brkReturns_iff _ hvm).mp (h ⟨67, 0x800000000000, 0, 0⟩ _ vm hvm)
    exact absurd hreturns (by decide)
  · intro h
    have htakes := (readReturns_iff _ _ _ _).mp (h .default 0 [] [0x61]) (.console .stdin) rfl
    exact absurd (htakes rfl) (List.cons_ne_nil _ _)

end Ysos

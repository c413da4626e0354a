import Ysos.Scheduling

/-! # Clock ticks (`proc/mod.rs`)

The clock interrupt calls `switch`, and nothing else happens between two ticks.

* `Rounds.turns_all`: in one turn more than there are living ones in a queue, each of them gets
  one turn in the order of the queue.
* `Proc.switch_eq`: what one `switch` does while others are ready.
* `Kernel.Rota`: the current process is alive, and the living ones in the queue are ready.
* `round_robin_iff`: one tick more than there are processes in the queue gives each of them one
  turn in the order of the queue, exactly when all are fit for it (`Kernel.Fit`). -/

/-! ### Rounds

The one whose turn it is, and a queue.  When a turn ends, the current one joins the queue, and the
first one of the queue that is alive gets the next turn; those in front of it are dropped. -/

namespace Rounds

variable {π : Type*} (alive : π → Bool)

/-- The current one joins the queue, and the next one leaves it. -/
def turn (s : π × List π) : π × List π :=
  match (s.2 ++ [s.1]).dropWhile fun p => !alive p with
  | [] => (s.1, [])
  | p :: rest => (p, rest)

/-- Several turns: who gets them, and the state afterwards. -/
def turns : ℕ → π × List π → List π × (π × List π)
  | 0, s => ([], s)
  | n + 1, s =>
      let (ps, t) := turns n (turn alive s)
      ((turn alive s).1 :: ps, t)

variable {alive} {s : π × List π} {c p y : π} {q pre rest ps tail : List π}

theorem turns_succ {n : ℕ} : turns alive (n + 1) s =
    ((turn alive s).1 :: (turns alive n (turn alive s)).1, (turns alive n (turn alive s)).2) := rfl

theorem turn_eq (h : s.2 ++ [s.1] = pre ++ p :: rest) (hpre : ∀ x ∈ pre, alive x = false)
    (hp : alive p = true) : turn alive s = (p, rest) := by
  have hdrop : (s.2 ++ [s.1]).dropWhile (fun p => !alive p) = p :: rest := by
    rw [h, List.dropWhile_append_of_pos fun x hx => by rw [hpre x hx]; rfl]
    exact List.dropWhile_cons_of_neg (by simp [hp])
  rw [turn, hdrop]

theorem turn_cons (hpre : ∀ x ∈ pre, alive x = false) (hp : alive p = true) :
    turn alive (c, pre ++ p :: rest) = (p, rest ++ [c]) :=
  turn_eq (s := (c, pre ++ p :: rest)) (by simp) hpre hp

/-- The turns while `done` had theirs, up to the first one of them. -/
theorem turns_queue (done : List π) (hc : alive c = true) (hdone : ∀ x ∈ done, alive x = true)
    (hq : q.filter alive = ps) (hy : done ++ c :: ps = y :: tail) :
    turns alive (ps.length + 1) (c, q ++ done) = (ps ++ [y], (y, tail)) := by
  induction ps generalizing q c done with
  | nil =>
      have hdead : ∀ x ∈ q, alive x = false := fun x hx => by
        simpa using List.filter_eq_nil_iff.mp hq x hx
      have hhead : alive y = true := by
        have hmem : y ∈ done ++ [c] := hy ▸ List.mem_cons_self
        rcases List.mem_append.mp hmem with hmem | hmem
        · exact hdone y hmem
        · rwa [List.mem_singleton.mp hmem]
      have hturn : turn alive (c, q ++ done) = (y, tail) := by
        refine turn_eq (s := (c, q ++ done)) ?_ hdead hhead
        rw [List.append_assoc, hy]
      rw [List.length_nil, turns_succ, hturn]
      rfl
  | cons p ps ih =>
      obtain ⟨pre, rest, rfl, hpre, hp, hrest⟩ := List.filter_eq_cons_iff.mp hq
      have hturn : turn alive (c, (pre ++ p :: rest) ++ done) = (p, rest ++ (done ++ [c])) := by
        rw [List.append_assoc, List.cons_append,
          turn_cons (fun x hx => by simpa using hpre x hx) hp, List.append_assoc]
      have hdone' : ∀ x ∈ done ++ [c], alive x = true := fun x hx => by
        rcases List.mem_append.mp hx with hx | hx
        · exact hdone x hx
        · rwa [List.mem_singleton.mp hx]
      have hrun := ih (done ++ [c]) hp hdone' hrest (by simpa using hy)
      rw [List.length_cons, turns_succ, hturn, hrun]
      rfl

/-- **A round.** -/
theorem turns_all (hc : alive c = true) (hq : q.filter alive = ps) :
    turns alive (ps.length + 1) (c, q) = (ps ++ [c], (c, ps)) := by
  have hrun := turns_queue [] hc nofun hq rfl
  rwa [List.append_nil] at hrun

end Rounds

namespace Ysos

open Runs

variable {α : Type} (B : Build)

/-! ### Consecutive ticks -/

/-- Calls of `switch` with the contexts they interrupt: the processes that they make current, and
the state afterwards. -/
def switches : List ProcessContext → Kernel α → Except Panic (List ProcessId × Kernel α)
  | [], k => .ok ([], k)
  | context :: contexts, k => do
      let (k, _) ← Proc.switch B context k
      let (pids, k') ← switches contexts k
      return (k.processor :: pids, k')

namespace Kernel

/-- A field of the process with the id `p`. -/
def field {β : Type} (k : Kernel α) (g : ProcessInner → β) (p : ProcessId) : Option β :=
  (k.getProc p).map fun r => g (k.heap r).inner

/-- The process is not dead. -/
def alive (k : Kernel α) (p : ProcessId) : Bool := k.field ProcessInner.status p ≠ some .dead

/-- The current process is alive, and the ready queue without its dead entries is `ps`: different
other processes, which are ready. -/
structure Rota (k : Kernel α) (ps : List ProcessId) : Prop where
  current : k.getProc k.processor ≠ none
  alive : k.alive k.processor = true
  queue : k.readyQueue.filter k.alive = ps
  ready : ∀ p ∈ ps, k.field ProcessInner.status p = some .ready
  nodup : (k.processor :: ps).Nodup

instance (k : Kernel α) (ps : List ProcessId) : Decidable (k.Rota ps) :=
  decidable_of_iff (k.getProc k.processor ≠ none ∧ k.alive k.processor = true ∧
      k.readyQueue.filter k.alive = ps ∧
      (∀ p ∈ ps, k.field ProcessInner.status p = some .ready) ∧ (k.processor :: ps).Nodup)
    ⟨fun ⟨h₁, h₂, h₃, h₄, h₅⟩ => ⟨h₁, h₂, h₃, h₄, h₅⟩,
      fun ⟨h₁, h₂, h₃, h₄, h₅⟩ => ⟨h₁, h₂, h₃, h₄, h₅⟩⟩

variable {B} {k k' : Kernel α} {r : Ref} {p q : ProcessId} {c c' : ProcessContext}
  {pre rest ps : List ProcessId}

theorem field_eq {β : Type} {g : ProcessInner → β} (hr : k.getProc p = some r) :
    k.field g p = some (g (k.heap r).inner) := by
  rw [field, hr, Option.map_some]

theorem field_modify {β : Type} {g : ProcessInner → β} {f : ProcessInner → ProcessInner}
    (h : k.table.Keyed) (hr : k.getProc p = some r) :
    (k.modify r f).field g q = if q = p then some (g (f (k.heap r).inner)) else k.field g q := by
  by_cases hq : q = p
  · subst hq
    rw [if_pos rfl, field_eq (k := k.modify r f) hr]
    simp [modify]
  · rw [if_neg hq]
    rcases hr' : k.getProc q with _ | r'
    · rw [field, field, hr', show (k.modify r f).getProc q = none from hr']
      rfl
    · have hne : r' ≠ r := by
        rintro rfl
        exact hq (h.key_unique hr hr')
      rw [field_eq hr', field_eq (k := k.modify r f) hr']
      simp [modify, hne]

theorem switchLoop_skip {cur : ProcessId} (hpre : ∀ q ∈ pre, ∃ s, s ≠ .ready ∧
      k.field ProcessInner.status q = some s) :
    k.switchLoop cur c (pre ++ rest) = k.switchLoop cur c rest := by
  induction pre with
  | nil => rfl
  | cons q pre ih =>
      obtain ⟨s, hs, hst⟩ := hpre q List.mem_cons_self
      obtain ⟨r, hr, rfl⟩ := Option.map_eq_some_iff.mp hst
      rw [List.cons_append, switchLoop, hr]
      show (if _ then _ else _) = _
      rw [if_pos hs]
      exact ih fun x hx => hpre x (List.mem_cons_of_mem _ hx)

theorem keyed_modify {f : ProcessInner → ProcessInner} (h : k.table.Keyed) :
    (k.modify r f).table.Keyed := by
  refine h.of_names ⟨rfl, rfl, fun q => ?_⟩
  by_cases hq : q = r
  · subst hq
    simp [table, modify, Process.entry, ProcessInner.entry]
  · simp [table, modify, hq]

theorem switchLoop_restore {cur : ProcessId} (hr : k.getProc p = some r)
    (hready : (k.heap r).inner.status = .ready) (hne : cur ≠ p) :
    k.switchLoop cur c (p :: rest) = (do
      let _ ← (k.heap r).inner.vm .restore
      return (p, (k.heap r).inner.context,
        { k.modify r ProcessInner.resume with readyQueue := rest, processor := p })) := by
  rw [switchLoop, hr]
  show (if _ then _ else _) = _
  rw [if_neg (not_not.mpr hready), if_pos hne, restore, ProcessInner.restore]
  rcases (k.heap r).inner.vm .restore with e | vm
  · rfl
  · rfl

theorem field_of_dead (h : k.alive q = false) : k.field ProcessInner.status q = some .dead := by
  simpa [Kernel.alive] using h

/-- The process behind `r` after a tick. -/
def saved (k : Kernel α) (r : Ref) (c : ProcessContext) (n : ℕ) : Kernel α :=
  k.modify r fun i => { i with ticksPassed := n, context := c, status := .ready }

theorem saveCurrent_eq (hr : k.current = .ok r) : k.saveCurrent B c = (do
    let n ← B.add (k.heap r).inner.ticksPassed 1
    return ((k.heap r).pid, k.saved r c n)) := by
  rw [saveCurrent, hr]
  show (ProcessInner.tick B (k.heap r).inner >>= fun _ => _) = _
  unfold ProcessInner.tick
  rcases B.add (k.heap r).inner.ticksPassed 1 with e | n
  · rfl
  · rfl

/-- The process `p` behind `rp` runs after the one behind `r`. -/
def turned (k : Kernel α) (r rp : Ref) (p : ProcessId) (c : ProcessContext) (n : ℕ)
    (rest : List ProcessId) : Kernel α :=
  { (k.saved r c n).modify rp ProcessInner.resume with
    readyQueue := rest ++ [k.processor]
    processor := p }

end Kernel

open Kernel

variable {B} {k k' : Kernel α} {r rp : Ref} {p q : ProcessId} {c c' : ProcessContext}
  {pre rest ps : List ProcessId}

/-- **One tick.**  If another process is ready, the current one is ticked, saved and queued, and the
first ready one is restored. -/
theorem Proc.switch_eq (hk : k.table.Keyed) (hr : k.current = .ok r)
    (halive : k.alive k.processor = true) (hq : k.readyQueue = pre ++ p :: rest)
    (hpre : ∀ q ∈ pre, k.alive q = false) (hp : k.getProc p = some rp)
    (hready : (k.heap rp).inner.status = .ready) (hne : p ≠ k.processor) :
    Proc.switch B c k = (do
      let n ← B.add (k.heap r).inner.ticksPassed 1
      let _ ← (k.heap rp).inner.vm .restore
      return (k.turned r rp p c n rest, (k.heap rp).inner.context)) := by
  have hcur := current_ok hr
  obtain ⟨hzero, hcur'⟩ := Table.current_iff.mp hcur
  have hpid : (k.heap r).pid = k.processor := hk.current_pid hcur
  have hrp : rp ≠ r := by
    rintro rfl
    exact hne (hk.key_unique hcur' hp)
  rw [switch, saveCurrent_eq hr]
  rcases B.add (k.heap r).inner.ticksPassed 1 with e | n
  · rfl
  let k₁ := (k.saved r c n).pushReady k.processor
  have hqueue : k₁.readyQueue = pre ++ (p :: (rest ++ [k.processor])) := by
    show k.readyQueue ++ [k.processor] = _
    rw [hq, List.append_assoc, List.cons_append]
  have hskip : k₁.switchLoop k.processor c k₁.readyQueue =
      k₁.switchLoop k.processor c (p :: (rest ++ [k.processor])) := by
    rw [hqueue]
    refine switchLoop_skip fun q hq => ⟨.dead, by rintro ⟨⟩, ?_⟩
    have hne : q ≠ k.table.processor := by
      rintro rfl
      exact Bool.false_ne_true ((hpre _ hq).symm.trans halive)
    show (k.saved r c n).field _ q = _
    rw [saved, field_modify hk hcur', if_neg hne, field_of_dead (hpre q hq)]
  have hheap : (k₁.heap rp).inner = (k.heap rp).inner := by
    simp [k₁, saved, pushReady, Kernel.modify, hrp]
  have hnext : k₁.switchNext c = k₁.switchLoop k.processor c k₁.readyQueue := by
    rw [switchNext, getPid, if_neg (show ¬ k₁.processor = 0 from hzero)]
    rfl
  have hpick : k₁.switchLoop k.processor c (p :: (rest ++ [k.processor])) = _ :=
    switchLoop_restore hp (hheap ▸ hready) hne.symm
  show (((k.saved r c n).pushReady (k.heap r).pid).switchNext c >>= _) = _
  rw [hpid, show (k.saved r c n).pushReady k.processor = k₁ from rfl, hnext, hskip, hpick, hheap]
  rcases (k.heap rp).inner.vm .restore with e | vm
  · rfl
  · rfl

namespace Kernel

/-- The counter `t` of ticks is `t'` after a tick. -/
def Ticks (B : Build) (t t' : Option ℕ) : Prop := ∃ n ∈ t, ∃ n', B.add n 1 = .ok n' ∧ t' = some n'

/-- The process has its memory. -/
def HasVm (k : Kernel α) (p : ProcessId) : Prop := ∀ vm ∈ k.field ProcessInner.procVm p, vm ≠ none

/-- What one `switch` does. -/
structure Turned (B : Build) (k k' : Kernel α) : Prop where
  keyed : k'.table.Keyed
  turn : Rounds.turn k.alive (k.processor, k.readyQueue) = (k'.processor, k'.readyQueue)
  status : ∀ q, k'.field ProcessInner.status q =
    if q = k'.processor then some .running
    else if q = k.processor then some .ready else k.field ProcessInner.status q
  ticked : Ticks B (k.field ProcessInner.ticksPassed k.processor)
    (k'.field ProcessInner.ticksPassed k.processor)
  ticks : ∀ q, q ≠ k.processor →
    k'.field ProcessInner.ticksPassed q = k.field ProcessInner.ticksPassed q
  memory : ∀ q, k'.field ProcessInner.procVm q = k.field ProcessInner.procVm q

theorem turned_field {β : Type} {g : ProcessInner → β} {n : ℕ} (hk : k.table.Keyed)
    (hr : k.getProc k.processor = some r) (hp : k.getProc p = some rp) (hne : p ≠ k.processor) :
    (k.turned r rp p c n rest).field g q =
      if q = p then some (g (k.heap rp).inner.resume)
      else if q = k.processor then
        some (g { (k.heap r).inner with ticksPassed := n, context := c, status := .ready })
      else k.field g q := by
  have hrp : rp ≠ r := by
    rintro rfl
    exact hne (hk.key_unique hr hp)
  have hkeyed : (k.saved r c n).table.Keyed := keyed_modify hk
  show ((k.saved r c n).modify rp ProcessInner.resume).field g q = _
  rw [field_modify hkeyed hp, saved, field_modify hk hr]
  simp [Kernel.modify, hrp]

theorem alive_of_ready (h : k.field ProcessInner.status p = some .ready) : k.alive p = true := by
  rw [Kernel.alive, h]
  rfl

theorem Turned.alive (h : Turned B k k') (hcur : k.alive k.processor = true)
    (hnext : k.alive k'.processor = true) : k'.alive = k.alive := by
  funext q
  by_cases hq : q = k'.processor
  · subst hq
    rw [hnext, Kernel.alive, h.status, if_pos rfl]
    rfl
  · by_cases hqc : q = k.processor
    · subst hqc
      rw [hcur, Kernel.alive, h.status, if_neg hq, if_pos rfl]
      rfl
    · rw [Kernel.alive, h.status, if_neg hq, if_neg hqc, Kernel.alive]

namespace Rota

theorem next_ne (h : k.Rota (p :: ps)) : p ≠ k.processor := fun he =>
  (List.nodup_cons.mp h.nodup).1 (he ▸ List.mem_cons_self)

theorem switch_eq (h : k.Rota (p :: ps)) (hk : k.table.Keyed) (hzero : k.processor ≠ 0) :
    ∃ r rp pre rest, k.getProc k.processor = some r ∧ k.getProc p = some rp ∧
      k.readyQueue = pre ++ p :: rest ∧ (∀ q ∈ pre, k.alive q = false) ∧
      Proc.switch B c k = (do
        let n ← B.add (k.heap r).inner.ticksPassed 1
        let _ ← (k.heap rp).inner.vm .restore
        return (k.turned r rp p c n rest, (k.heap rp).inner.context)) := by
  obtain ⟨r, hr⟩ := Option.ne_none_iff_exists'.mp h.current
  obtain ⟨pre, rest, hq, hpre, -, -⟩ := List.filter_eq_cons_iff.mp h.queue
  obtain ⟨rp, hp, hready⟩ := Option.map_eq_some_iff.mp (h.ready p List.mem_cons_self)
  have hcur : k.current = .ok r := current_of_table (Table.current_iff.mpr ⟨hzero, hr⟩)
  have hpre : ∀ q ∈ pre, k.alive q = false := fun q hq => by simpa using hpre q hq
  exact ⟨r, rp, pre, rest, hr, hp, hq, hpre,
    Proc.switch_eq hk hcur h.alive hq hpre hp hready h.next_ne⟩

theorem switch_ok (h : k.Rota (p :: ps)) (hk : k.table.Keyed) (hzero : k.processor ≠ 0)
    (hvm : k.HasVm p)
    (htick : ∀ t ∈ k.field ProcessInner.ticksPassed k.processor, ∃ n, B.add t 1 = .ok n) :
    ∃ k' c', Proc.switch B c k = .ok (k', c') := by
  obtain ⟨r, rp, pre, rest, hr, hp, -, -, hs⟩ := h.switch_eq (B := B) (c := c) hk hzero
  obtain ⟨n, hn⟩ := htick _ (field_eq hr)
  obtain ⟨vm, hvm⟩ := Option.ne_none_iff_exists'.mp (hvm _ (field_eq hp))
  refine ⟨k.turned r rp p c n rest, (k.heap rp).inner.context, ?_⟩
  rw [hs, hn, ProcessInner.vm, hvm]
  rfl

theorem switch_turned (h : k.Rota (p :: ps)) (hk : k.table.Keyed)
    (hs : Proc.switch B c k = .ok (k', c')) :
    Turned B k k' ∧ k.processor ≠ 0 ∧ k'.processor = p ∧ k.HasVm p := by
  have hzero : k.processor ≠ 0 := by
    simp only [Proc.switch, bind_eq_ok] at hs
    obtain ⟨⟨pid, k₁⟩, hsave, -⟩ := hs
    obtain ⟨r, hr, -⟩ := saveCurrent_table hsave
    exact (Table.current_iff.mp (current_ok hr)).1
  obtain ⟨r, rp, pre, rest, hr, hp, hq, hpre, hswitch⟩ := h.switch_eq (B := B) (c := c) hk hzero
  rw [hswitch] at hs
  simp only [bind_eq_ok, pure_eq_ok] at hs
  obtain ⟨n, hn, vm, hvm, hs⟩ := hs
  obtain ⟨rfl, -⟩ := Prod.mk.inj hs
  refine ⟨⟨?_, ?_, fun q => ?_, ?_, fun q hq => ?_, fun q => ?_⟩, hzero, rfl, fun vm' hvm' => ?_⟩
  · exact keyed_modify (k := k.saved r c n) (keyed_modify hk)
  · have halive : k.alive p = true := alive_of_ready (h.ready p List.mem_cons_self)
    rw [hq]
    exact Rounds.turn_cons hpre halive
  · exact turned_field hk hr hp h.next_ne
  · rw [turned_field hk hr hp h.next_ne, if_neg h.next_ne.symm, if_pos rfl, field_eq hr]
    exact ⟨_, rfl, n, hn, rfl⟩
  · rw [turned_field hk hr hp h.next_ne, if_neg hq]
    split_ifs with hqp
    · rw [hqp, field_eq hp]
      rfl
    · rfl
  · rw [turned_field hk hr hp h.next_ne]
    split_ifs with hqp hqc
    · rw [hqp, field_eq hp]
      rfl
    · rw [hqc, field_eq hr]
    · rfl
  · rw [field_eq hp, Option.mem_some_iff] at hvm'
    rw [← hvm', vm_ok hvm]
    rintro ⟨⟩

theorem turn_fst (h : k.Rota (p :: ps)) :
    (Rounds.turn k.alive (k.processor, k.readyQueue)).1 = p := by
  obtain ⟨pre, rest, hq, hpre, hp, -⟩ := List.filter_eq_cons_iff.mp h.queue
  rw [hq, Rounds.turn_cons (fun q hq => by simpa using hpre q hq) hp]

/-- Then it is the turn of the next one, and the current one is the last one in the queue. -/
theorem next (h : k.Rota (p :: ps)) (ht : Turned B k k') (hp : k'.processor = p) :
    k'.Rota (ps ++ [k.processor]) ∧ k'.alive = k.alive := by
  obtain ⟨hcur, hnd⟩ := List.nodup_cons.mp h.nodup
  obtain ⟨hpps, hps⟩ := List.nodup_cons.mp hnd
  have hpalive : k.alive p = true := alive_of_ready (h.ready p List.mem_cons_self)
  have halive : k'.alive = k.alive := ht.alive h.alive (hp.symm ▸ hpalive)
  obtain ⟨pre, rest, hq, hpre, -, hrest⟩ := List.filter_eq_cons_iff.mp h.queue
  have hqueue : k'.readyQueue = rest ++ [k.processor] := by
    have hturn := ht.turn
    rw [hq, Rounds.turn_cons (fun q hq => by simpa using hpre q hq) hpalive] at hturn
    exact (Prod.mk.inj hturn).2.symm
  have hstatus := ht.status
  rw [hp] at hstatus
  refine ⟨⟨?_, ?_, ?_, fun q hq => ?_, ?_⟩, halive⟩
  · rw [hp]
    intro hnone
    have hrunning := hstatus p
    rw [if_pos rfl, field, hnone] at hrunning
    cases hrunning
  · rw [halive, hp]
    exact hpalive
  · rw [hqueue, halive, List.filter_append, hrest, List.filter_cons_of_pos h.alive]
    rfl
  · rw [hstatus]
    rcases List.mem_append.mp hq with hq | hq
    · have hqp : q ≠ p := fun he => hpps (he ▸ hq)
      have hqc : q ≠ k.processor := fun he => hcur (he ▸ List.mem_cons_of_mem _ hq)
      rw [if_neg hqp, if_neg hqc]
      exact h.ready q (List.mem_cons_of_mem _ hq)
    · rw [List.mem_singleton.mp hq, if_neg h.next_ne.symm, if_pos rfl]
  · rw [hp, ← List.cons_append]
    refine (List.nodup_append_comm).mpr ?_
    exact h.nodup

end Rota

/-- What consecutive ticks do that make the processes `tr` current. -/
structure Ran (B : Build) (k : Kernel α) (tr : List ProcessId) (k' : Kernel α) : Prop where
  rota : ∃ ps, k'.Rota ps
  alive : k'.alive = k.alive
  turns : Rounds.turns k.alive tr.length (k.processor, k.readyQueue) =
    (tr, (k'.processor, k'.readyQueue))
  running : tr ≠ [] ∨ k.field ProcessInner.status k.processor = some .running →
    k'.field ProcessInner.status k'.processor = some .running
  memory : ∀ p ∈ tr, k.HasVm p
  nonzero : ∀ p ∈ (k.processor :: tr).dropLast, p ≠ 0
  ticks : ∀ p ∉ (k.processor :: tr).dropLast,
    k'.field ProcessInner.ticksPassed p = k.field ProcessInner.ticksPassed p
  ticked : (k.processor :: tr).dropLast.Nodup → ∀ p ∈ (k.processor :: tr).dropLast,
    Ticks B (k.field ProcessInner.ticksPassed p) (k'.field ProcessInner.ticksPassed p)

theorem Ran.refl (h : k.Rota ps) : Ran B k [] k where
  rota := ⟨ps, h⟩
  alive := rfl
  turns := rfl
  running h := h.resolve_left fun hne => hne rfl
  memory := nofun
  nonzero := nofun
  ticks _ _ := rfl
  ticked _ := nofun

variable {k₁ : Kernel α} {tr : List ProcessId}

theorem Ran.cons (ht : Turned B k k₁) (halive : k₁.alive = k.alive) (hzero : k.processor ≠ 0)
    (hvm : k.HasVm k₁.processor) (h : Ran B k₁ tr k') : Ran B k (k₁.processor :: tr) k' where
  rota := h.rota
  alive := h.alive.trans halive
  turns := by
    have hturns := h.turns
    rw [halive] at hturns
    rw [List.length_cons, Rounds.turns_succ, ht.turn, hturns]
  running _ := h.running (Or.inr (by rw [ht.status, if_pos rfl]))
  memory p hp := by
    rcases List.mem_cons.mp hp with rfl | hp
    · exact hvm
    · have := h.memory p hp
      rwa [HasVm, ht.memory] at this
  nonzero p hp := by
    rcases List.mem_cons.mp hp with rfl | hp
    · exact hzero
    · exact h.nonzero p hp
  ticks p hp := by
    have hpc : p ≠ k.processor := fun he => hp (he ▸ List.mem_cons_self)
    rw [h.ticks p fun hmem => hp (List.mem_cons_of_mem _ hmem), ht.ticks p hpc]
  ticked hnd p hp := by
    obtain ⟨hc, hnd⟩ := List.nodup_cons.mp hnd
    rcases List.mem_cons.mp hp with rfl | hp
    · rw [h.ticks _ hc]
      exact ht.ticked
    · have hpc : p ≠ k.processor := fun he => hc (he ▸ hp)
      rw [← ht.ticks p hpc]
      exact h.ticked hnd p hp

/-- **Several ticks.** -/
theorem Rota.ran : ∀ {cs : List ProcessContext} {k k' : Kernel α} {ps tr : List ProcessId},
    k.Rota ps → k.table.Keyed → ps ≠ [] → switches B cs k = .ok (tr, k') →
      Ran B k tr k' ∧ tr.length = cs.length
  | [], _, _, _, _, h, _, _, hs => by
      cases hs
      exact ⟨.refl h, rfl⟩
  | _ :: _, _, _, [], _, _, _, hne, _ => absurd rfl hne
  | c :: cs, k, k', p :: ps, tr, h, hk, _, hs => by
      simp only [switches, bind_eq_ok, pure_eq_ok] at hs
      obtain ⟨⟨k₁, c₁⟩, hswitch, ⟨tr₁, k₂⟩, hrest, hs⟩ := hs
      cases hs
      obtain ⟨ht, hzero, hp, hvm⟩ := h.switch_turned hk hswitch
      obtain ⟨hnext, halive⟩ := h.next ht hp
      obtain ⟨hran, hlen⟩ := Rota.ran hnext ht.keyed (List.concat_ne_nil _ _) hrest
      exact ⟨.cons ht halive hzero (hp.symm ▸ hvm) hran, congrArg (· + 1) hlen⟩

theorem Rota.runs : ∀ {cs : List ProcessContext} {k : Kernel α} {ps tr : List ProcessId},
    k.Rota ps → k.table.Keyed → ps ≠ [] →
      (Rounds.turns k.alive cs.length (k.processor, k.readyQueue)).1 = tr →
      (∀ p ∈ tr, k.HasVm p) → (∀ p ∈ (k.processor :: tr).dropLast, p ≠ 0) →
      (∀ p ∈ (k.processor :: tr).dropLast, ∀ t ∈ k.field ProcessInner.ticksPassed p,
        ∃ n, B.add t 1 = .ok n) → (k.processor :: tr).dropLast.Nodup →
      ∃ k', switches B cs k = .ok (tr, k')
  | [], k, _, _, _, _, _, rfl, _, _, _, _ => ⟨k, rfl⟩
  | _ :: _, _, [], _, _, _, hne, _, _, _, _, _ => absurd rfl hne
  | c :: cs, k, p :: ps, _, h, hk, _, rfl, hvm, hzero, htick, hnd => by
      rw [List.length_cons, Rounds.turns_succ] at hvm hzero htick hnd ⊢
      have hfirst := hvm _ List.mem_cons_self
      rw [h.turn_fst] at hfirst
      obtain ⟨k₁, c₁, hswitch⟩ := h.switch_ok (c := c) hk (hzero _ List.mem_cons_self) hfirst
        (htick _ List.mem_cons_self)
      obtain ⟨ht, -, hp, -⟩ := h.switch_turned hk hswitch
      obtain ⟨hnext, halive⟩ := h.next ht hp
      rw [ht.turn, ← halive] at hvm hzero htick hnd ⊢
      obtain ⟨hc, hnd⟩ := List.nodup_cons.mp hnd
      obtain ⟨k', hrun⟩ := Rota.runs hnext ht.keyed (List.concat_ne_nil _ _) rfl
        (fun q hq => by
          rw [HasVm, ht.memory]
          exact hvm q (List.mem_cons_of_mem _ hq))
        (fun q hq => hzero q (List.mem_cons_of_mem _ hq))
        (fun q hq => by
          have hqc : q ≠ k.processor := fun he => hc (he ▸ hq)
          rw [ht.ticks q hqc]
          exact htick q (List.mem_cons_of_mem _ hq)) hnd
      refine ⟨k', ?_⟩
      simp only [switches, bind_eq_ok]
      exact ⟨(k₁, c₁), hswitch, _, hrun, rfl⟩

/-- From `k` to `k'` the current process and the processes `ps` in the queue had one turn each. -/
structure Round (k : Kernel α) (ps : List ProcessId) (k' : Kernel α) : Prop where
  current : k'.processor = k.processor
  running : k'.field ProcessInner.status k.processor = some .running
  ready : ∀ p ∈ ps, k'.field ProcessInner.status p = some .ready
  queue : k'.readyQueue = ps
  ticks : ∀ p ∈ k.processor :: ps,
    k'.field ProcessInner.ticksPassed p = (k.field ProcessInner.ticksPassed p).map (· + 1)

/-- The id is not the one of no process, the process has its memory, and its counter of ticks is
not at its end. -/
structure Fit (k : Kernel α) (p : ProcessId) : Prop where
  nonzero : p ≠ 0
  memory : k.HasVm p
  ticks : ∀ t ∈ k.field ProcessInner.ticksPassed p, t + 1 < U64

instance (k : Kernel α) (p : ProcessId) : Decidable (k.Fit p) :=
  decidable_of_iff (p ≠ 0 ∧ (∀ vm ∈ k.field ProcessInner.procVm p, vm ≠ none) ∧
      ∀ t ∈ k.field ProcessInner.ticksPassed p, t + 1 < U64)
    ⟨fun ⟨h₁, h₂, h₃⟩ => ⟨h₁, h₂, h₃⟩, fun ⟨h₁, h₂, h₃⟩ => ⟨h₁, h₂, h₃⟩⟩

end Kernel

theorem Build.add_one_iff {t : ℕ} : B.add t 1 = .ok (t + 1) ↔ t + 1 < U64 := by
  constructor
  · intro h
    rw [Build.add] at h
    split_ifs at h with hlt
    · exact hlt
    · have hmod : (t + 1) % U64 < U64 := Nat.mod_lt _ (by decide)
      rwa [Except.ok.inj h] at hmod
  · exact B.add_eq

/-- **Round robin.**  Whatever contexts the ticks interrupt: one tick more than there are processes
in the queue makes them current in the order of the queue, and then the first one again, with one
tick for each, exactly when all of them are fit for it. -/
theorem round_robin_iff {cs : List ProcessContext} (hk : k.table.Keyed) (h : k.Rota ps)
    (hne : ps ≠ []) (hcs : cs.length = ps.length + 1) :
    (∃ k', switches B cs k = .ok (ps ++ [k.processor], k') ∧ k.Round ps k') ↔
      ∀ p ∈ k.processor :: ps, k.Fit p := by
  have hlast : (k.processor :: (ps ++ [k.processor])).dropLast = k.processor :: ps := by
    rw [← List.cons_append, List.dropLast_concat]
  have hturns := Rounds.turns_all h.alive h.queue
  rw [← hcs] at hturns
  constructor
  · rintro ⟨k', hs, hround⟩ p hp
    obtain ⟨hran, -⟩ := h.ran hk hne hs
    obtain ⟨-, -, -, -, hvm, hzero, -, hticked⟩ := hran
    rw [hlast] at hzero hticked
    refine ⟨hzero p hp, hvm p ?_, fun t ht => ?_⟩
    · rw [List.mem_append, List.mem_singleton]
      exact (List.mem_cons.mp hp).symm
    · obtain ⟨n, hn, n', hadd, hn'⟩ := hticked h.nodup p hp
      obtain rfl := Option.mem_unique ht hn
      rw [hround.ticks p hp, Option.mem_def.mp ht, Option.map_some, Option.some.injEq] at hn'
      exact Build.add_one_iff.mp (hn'.symm ▸ hadd)
  · intro hfit
    have hruns : ∃ k', switches B cs k = .ok (ps ++ [k.processor], k') := by
      refine h.runs hk hne (congrArg Prod.fst hturns) (fun p hp => ?_) ?_ ?_ ?_
      · rw [List.mem_append, List.mem_singleton] at hp
        exact (hfit p (List.mem_cons.mpr hp.symm)).memory
      · rw [hlast]
        exact fun p hp => (hfit p hp).nonzero
      · rw [hlast]
        exact fun p hp t ht => ⟨t + 1, B.add_eq ((hfit p hp).ticks t ht)⟩
      · rw [hlast]
        exact h.nodup
    obtain ⟨k', hs⟩ := hruns
    obtain ⟨hran, hlen⟩ := h.ran hk hne hs
    have hend := hran.turns
    rw [hlen, hturns] at hend
    obtain ⟨hproc, hqueue⟩ := Prod.mk.inj (Prod.mk.inj hend).2
    obtain ⟨ps', hrota⟩ := hran.rota
    have hps : ps' = ps := by
      rw [← hrota.queue, hran.alive, ← hqueue]
      exact List.filter_eq_self.mpr fun p hp => alive_of_ready (h.ready p hp)
    refine ⟨k', hs, hproc.symm, ?_, hps ▸ hrota.ready, hqueue.symm, fun p hp => ?_⟩
    · rw [hproc]
      exact hran.running (Or.inl (List.concat_ne_nil _ _))
    · have hticked := hran.ticked
      rw [hlast] at hticked
      obtain ⟨n, hn, n', hadd, hn'⟩ := hticked h.nodup p hp
      rw [B.add_eq ((hfit p hp).ticks n hn)] at hadd
      rw [hn', Option.mem_def.mp hn, ← Except.ok.inj hadd]
      rfl

/-- The kernel process and the processes 2 and 4 run in turn, and process 3 is dead in the queue. -/
theorem round_robin_example : ∃ k k' : Kernel BootInfoFrameAllocator,
    k.readyQueue = [2, 3, 4] ∧
      switches Build.release [default, default, default] k = .ok ([2, 4, 1], k') ∧
      k.Round [2, 4] k' := by
  have hs : (execCalls Any default [.spawn "sh", .spawn "sh", .spawn "sh", .kill 3]).map
      (fun k => (k.processor, k.readyQueue, decide (k.Rota [2, 4]),
        decide (∀ p ∈ k.processor :: [2, 4], k.Fit p))) = some (1, [2, 3, 4], true, true) := by
    decide +kernel
  obtain ⟨k, hk, hval⟩ := Option.map_eq_some_iff.mp hs
  simp only [Prod.mk.injEq, decide_eq_true_eq] at hval
  obtain ⟨hone, hqueue, hrota, hfit⟩ := hval
  have hkeyed := (run_numbered (run_of_exec hk)).keyed
  have hlen : [default, default, (default : ProcessContext)].length = [2, 4].length + 1 := rfl
  obtain ⟨k', hticks, hround⟩ :=
    (round_robin_iff (B := Build.release) hkeyed hrota nofun hlen).mpr hfit
  rw [hone] at hticks
  exact ⟨k, k', hqueue, hticks, hround⟩

/-- Process 2 was killed while it waited for process 3, whose exit made it ready without memory. -/
theorem dead_process_in_turn : ¬ ∀ (b : BootInfo BootInfoFrameAllocator)
    (k : Kernel BootInfoFrameAllocator) (ps : List ProcessId) (cs : List ProcessContext),
    Run (step Build.release) Any (boot b) k → k.Rota ps → ps ≠ [] →
      cs.length = ps.length + 1 →
      ∃ k', switches Build.release cs k = .ok (ps ++ [k.processor], k') ∧ k.Round ps k' := by
  intro hall
  have hs : (execCalls Any default
      [.spawn "sh", .spawn "sh", .switch, .waitPid 3, .kill 2, .processExit 7]).map
      (fun k => (decide (k.Rota [2]),
        (switches Build.release [default, default] k).toOption.isSome)) = some (true, false) := by
    decide +kernel
  obtain ⟨k, hk, hval⟩ := Option.map_eq_some_iff.mp hs
  simp only [Prod.mk.injEq, decide_eq_true_eq] at hval
  obtain ⟨hrota, hpanics⟩ := hval
  obtain ⟨k', hticks, -⟩ :=
    hall smallMachine k [2] [default, default] (run_of_exec hk) hrota nofun rfl
  rw [hticks] at hpanics
  cases hpanics

end Ysos

import Mathlib.Algebra.BigOperators.Fin
import Mathlib.Algebra.Order.BigOperators.Group.Finset
import Mathlib.Tactic.Abel

/-! # Script checks in parallel

A `CCheckQueue` is filled by the master thread and emptied by the workers and the master.
-/

namespace Palladium.CheckQueue
open Bool Function List

/-- A check, with the number of checks that were added before. -/
structure Job (Check : Type) where
  ticket : ℕ
  check : Check
  deriving DecidableEq

/-- Where a thread is in `Loop`. -/
inductive Pc (Check : Type)
  | outside
  /-- outside of the lock, with the rest of its batch -/
  | working (vChecks : List (Job Check)) (nNow : ℕ) (fOk : Bool)
  /-- in `cond.wait` -/
  | waiting

/-- A session that has ended: what was added and executed, and what `Wait` returned. -/
structure Session (Check : Type) where
  added : List (Job Check)
  executed : List (Job Check)
  fRet : Bool

/-- The queue has its back first. The thread `none` is the master; `fDone` is the flag of the
`CCheckQueueControl` that holds `ControlMutex`. -/
structure State (Worker Check : Type) where
  queue : List (Job Check) := []
  nIdle : ℕ := 0
  nTotal : ℕ := 0
  fAllOk : Bool := true
  nTodo : ℕ := 0
  fDone : Option Bool := none
  pc : Option Worker → Pc Check := fun _ => .outside
  nAdded : ℕ := 0
  added : List (Job Check) := []
  executed : List (Job Check) := []
  ended : List (Session Check) := []

inductive Action (Worker Check : Type)
  /-- a worker thread begins -/
  | thread (w : Worker)
  /-- a `CCheckQueueControl` is constructed -/
  | control
  | add (vChecks : List Check)
  /-- the master calls `Wait`, or the destructor does -/
  | wait
  /-- the `CCheckQueueControl` is gone -/
  | leave
  /-- a thread comes to the next check of its batch -/
  | execute (t : Option Worker)
  /-- a thread with nothing left of its batch takes the lock -/
  | lock (t : Option Worker)
  /-- `cond.wait` returns -/
  | wake (t : Option Worker)

variable {Worker Check : Type} [DecidableEq Worker]
namespace State
variable (s : State Worker Check)

def setPc (t : Option Worker) (pc : Pc Check) : State Worker Check :=
  { s with pc := Function.update s.pc t pc }

variable (vChecks : List Check)

def jobs : List (Job Check) :=
  vChecks.mapIdx fun i check => ⟨s.nAdded + i, check⟩

def addChecks (s : State Worker Check) : State Worker Check :=
  { s with
    queue := (s.jobs vChecks).reverse ++ s.queue
    nTodo := s.nTodo + vChecks.length
    nAdded := s.nAdded + vChecks.length
    added := s.added ++ s.jobs vChecks }

def cleanUp (nNow : ℕ) (fOk : Bool) (s : State Worker Check) : State Worker Check :=
  if nNow ≠ 0 then { s with fAllOk := s.fAllOk && fOk, nTodo := s.nTodo - nNow }
  else { s with nTotal := s.nTotal + 1 }

def batch (nBatchSize : ℕ) (s : State Worker Check) : ℕ :=
  max 1 (min nBatchSize (s.queue.length / (s.nTotal + s.nIdle + 1)))

/-- The rest of the critical section: return, wait or take a batch. -/
def process (nBatchSize : ℕ) (t : Option Worker) (s : State Worker Check) : State Worker Check :=
  if s.queue.isEmpty then
    if t.isNone && s.nTodo == 0 then
      { s.setPc t .outside with
        nTotal := s.nTotal - 1
        fAllOk := true
        fDone := some true
        added := []
        executed := []
        ended := s.ended ++ [⟨s.added, s.executed, s.fAllOk⟩] }
    else { s.setPc t .waiting with nIdle := s.nIdle + 1 }
  else
    let nNow := s.batch nBatchSize
    { s.setPc t (.working (s.queue.take nNow) nNow s.fAllOk) with queue := s.queue.drop nNow }

variable (run : Check → Bool)

/-- One check of the batch, which is skipped when one has failed. -/
def execute (t : Option Worker) (job : Job Check) (rest : List (Job Check)) (nNow : ℕ) (fOk : Bool)
    (s : State Worker Check) : State Worker Check :=
  if fOk then
    { s.setPc t (.working rest nNow (run job.check)) with executed := s.executed ++ [job] }
  else s.setPc t (.working rest nNow fOk)

def step (nBatchSize : ℕ) (s : State Worker Check) :
    Action Worker Check → Option (State Worker Check)
  | .thread w => match s.pc (some w) with
    | .outside => some (s.setPc (some w) (.working [] 0 true))
    | _ => none
  | .control => match s.fDone with
    | none => some { s with fDone := some false }
    | some _ => none
  | .add vChecks => match s.fDone, s.pc none with
    | some false, .outside => some (s.addChecks vChecks)
    | _, _ => none
  | .wait => match s.fDone, s.pc none with
    | some false, .outside => some (s.setPc none (.working [] 0 true))
    | _, _ => none
  | .leave => match s.fDone with
    | some true => some { s with fDone := none }
    | _ => none
  | .execute t => match s.pc t with
    | .working (job :: rest) nNow fOk => some (s.execute run t job rest nNow fOk)
    | _ => none
  | .lock t => match s.pc t with
    | .working [] nNow fOk => some ((s.cleanUp nNow fOk).process nBatchSize t)
    | _ => none
  | .wake t => match s.pc t with
    | .waiting => some (process nBatchSize t { s with nIdle := s.nIdle - 1 })
    | _ => none

end State

/-- The states that any interleaving of the threads leads to. -/
inductive Reachable (run : Check → Bool) (nBatchSize : ℕ) : State Worker Check → Prop
  | init : Reachable run nBatchSize {}
  | step {s s' : State Worker Check} {a : Action Worker Check} :
      Reachable run nBatchSize s → s.step run nBatchSize a = some s' →
        Reachable run nBatchSize s'

namespace Pc

def nNow : Pc Check → ℕ
  | .working _ nNow _ => nNow
  | _ => 0

def todo : Pc Check → List (Job Check)
  | .working vChecks _ _ => vChecks
  | _ => []

def failed : Pc Check → Bool
  | .working _ _ fOk => !fOk
  | _ => false

theorem nNow_working {vChecks : List (Job Check)} {n : ℕ} {fOk : Bool} :
    (working vChecks n fOk).nNow = n := rfl

structure Free (pc : Pc Check) : Prop where
  nNow : pc.nNow = 0
  todo : pc.todo = []
  failed : pc.failed = false

theorem Free.outside : Free (.outside : Pc Check) := ⟨rfl, rfl, rfl⟩

theorem Free.waiting : Free (.waiting : Pc Check) := ⟨rfl, rfl, rfl⟩

theorem Free.entering : Free (.working [] 0 true : Pc Check) := ⟨rfl, rfl, rfl⟩

end Pc

/-- What is to hold of a session that ended. -/
structure Session.Correct (run : Check → Bool) (session : Session Check) : Prop where
  fRet : session.fRet = true ↔ ∀ job ∈ session.added, run job.check = true
  executed_le : (session.executed : Multiset (Job Check)) ≤ session.added
  executed_perm : (∀ job ∈ session.added, run job.check = true) →
    session.executed.Perm session.added

variable (s : State Worker Check)

def Noticed : Prop :=
  s.fAllOk = false ∨ ∃ t, (s.pc t).failed = true

def State.allAdded : List (Job Check) :=
  s.ended.flatMap (·.added) ++ s.added

structure Inv [Fintype Worker] (run : Check → Bool) (s : State Worker Check) : Prop where
  nTodo : s.nTodo = s.queue.length + ∑ t, (s.pc t).nNow
  todo_le : ∀ t, (s.pc t).todo.length ≤ (s.pc t).nNow
  nNow_pos : ∀ t, (s.pc t).failed = true → 0 < (s.pc t).nNow
  jobs : ∃ skipped : Multiset (Job Check),
    (s.added : Multiset (Job Check)) =
      s.queue + ∑ t, ((s.pc t).todo : Multiset (Job Check)) + s.executed + skipped ∧
    (skipped ≠ 0 → Noticed s)
  executed : ∀ job ∈ s.executed, run job.check = false → Noticed s
  noticed : Noticed s → ∃ job ∈ s.added, run job.check = false
  tickets : s.allAdded.map (·.ticket) = List.range s.nAdded
  ended : ∀ session ∈ s.ended, session.Correct run

section Steps
variable {run : Check → Bool} {nBatchSize : ℕ} {s s' : State Worker Check} {t : Option Worker}
  {x : Pc Check}

theorem forall_update {P : Pc Check → Prop} (h : ∀ u, P (s.pc u)) (hx : P x)
    (u : Option Worker) : P (update s.pc t x u) := by
  rcases eq_or_ne u t with rfl | hn
  · rwa [update_self]
  · rw [update_of_ne hn]
    exact h u

theorem Noticed.setPc (h : Noticed s) (hx : (s.pc t).failed → x.failed) : Noticed (s.setPc t x) := by
  rcases h with h | ⟨u, hu⟩
  · exact .inl h
  · rcases eq_or_ne u t with rfl | hn
    · exact .inr ⟨u, by simpa [State.setPc] using hx hu⟩
    · exact .inr ⟨u, by simpa [State.setPc, update_of_ne hn] using hu⟩

theorem Noticed.of_setPc (h : Noticed (s.setPc t x)) (hx : x.failed → Noticed s) : Noticed s := by
  rcases h with h | ⟨u, hu⟩
  · exact .inl h
  · rcases eq_or_ne u t with rfl | hn
    · exact hx (by simpa [State.setPc] using hu)
    · exact .inr ⟨u, by simpa [State.setPc, update_of_ne hn] using hu⟩

omit [DecidableEq Worker] in
theorem batch_le (nBatchSize : ℕ) (hq : s.queue ≠ []) :
    1 ≤ s.batch nBatchSize ∧ s.batch nBatchSize ≤ s.queue.length := by
  have hp := length_pos_iff.mpr hq
  have hd := Nat.div_le_self s.queue.length (s.nTotal + s.nIdle + 1)
  exact ⟨le_max_left _ _, max_le hp ((min_le_right _ _).trans hd)⟩

theorem process_setPc : (s.setPc t x).process nBatchSize t = s.process nBatchSize t := by
  simp [State.process, State.setPc, State.batch]

omit [DecidableEq Worker] in
theorem map_ticket_jobs (vChecks : List Check) :
    (s.jobs vChecks).map (·.ticket) = (List.range vChecks.length).map (s.nAdded + ·) := by
  apply ext_getElem <;> simp [State.jobs]

section Threads
variable [Fintype Worker]

omit [DecidableEq Worker] in
theorem Inv.of_free (hp : ∀ t, (s.pc t).Free) (hq : s.queue = []) (hnt : s.nTodo = 0)
    (hal : s.fAllOk) (ha : s.added = []) (he : s.executed = [])
    (hti : s.allAdded.map (·.ticket) = List.range s.nAdded)
    (hen : ∀ session ∈ s.ended, session.Correct run) : Inv run s := by
  have hn : ¬ Noticed s := by
    rintro (h | ⟨t, ht⟩)
    · exact absurd (h.symm.trans hal) (by decide)
    · exact absurd (ht.symm.trans (hp t).failed) (by decide)
  refine ⟨?_, fun t => ?_, fun t ht => ?_, ⟨0, ?_, fun h => absurd rfl h⟩, fun job hj => ?_,
    fun h => absurd h hn, hti, hen⟩
  · simp [hq, hnt, fun t => (hp t).nNow]
  · simp [(hp t).todo]
  · exact absurd (ht.symm.trans (hp t).failed) (by decide)
  · simp [ha, hq, he, fun t => (hp t).todo]
  · simp [he] at hj

omit [DecidableEq Worker] in
theorem Inv.init : Inv run ({} : State Worker Check) :=
  .of_free (fun _ => .outside) rfl rfl rfl rfl rfl rfl nofun

theorem sum_update {M : Type} [AddCommMonoid M] (f : Pc Check → M) (pc : Option Worker → Pc Check)
    (t : Option Worker) (x : Pc Check) :
    ∑ u, f (update pc t x u) + f (pc t) = ∑ u, f (pc u) + f x := by
  have hr : ∑ u ∈ Finset.univ.erase t, f (update pc t x u) = ∑ u ∈ Finset.univ.erase t, f (pc u) :=
    Finset.sum_congr rfl fun u hu => by rw [update_of_ne (Finset.ne_of_mem_erase hu)]
  rw [← Finset.add_sum_erase _ _ (Finset.mem_univ t),
    ← Finset.add_sum_erase _ _ (Finset.mem_univ t), hr, update_self, add_comm (f x),
    add_comm (f (pc t)), add_right_comm]

theorem Inv.of_update (h : Inv run s) (hp : s'.pc = update s.pc t x)
    (ha : s'.added = s.added) (hna : s'.nAdded = s.nAdded) (he : s'.ended = s.ended)
    (hnt : s'.nTodo + s.queue.length + (s.pc t).nNow = s.nTodo + s'.queue.length + x.nNow)
    (hl : x.todo.length ≤ x.nNow) (hpo : x.failed → 0 < x.nNow)
    (hj : ∃ skipped : Multiset (Job Check),
      (s.queue : Multiset (Job Check)) + (s.pc t).todo + s.executed =
        s'.queue + x.todo + s'.executed + skipped ∧ (skipped ≠ 0 → Noticed s'))
    (hex : ∀ job ∈ s'.executed, run job.check = false → job ∈ s.executed ∨ Noticed s')
    (hmo : Noticed s → Noticed s')
    (hno : Noticed s' → Noticed s ∨ ∃ job ∈ s.added, run job.check = false) :
    Inv run s' where
  nTodo := by
    have hsu := sum_update Pc.nNow s.pc t x
    have := h.nTodo
    rw [hp]
    omega
  todo_le := hp ▸ forall_update (P := fun pc => pc.todo.length ≤ pc.nNow) h.todo_le hl
  nNow_pos := hp ▸ forall_update (P := fun pc => pc.failed = true → 0 < pc.nNow) h.nNow_pos hpo
  jobs := by
    obtain ⟨skipped, heq, hs⟩ := h.jobs
    obtain ⟨more, hme, hnw⟩ := hj
    have hsu := sum_update (fun pc => (pc.todo : Multiset (Job Check))) s.pc t x
    refine ⟨skipped + more, ?_, fun hne => ?_⟩
    · -- both sides are equal once the old and the new batch of the thread are added
      apply add_right_cancel (b := (x.todo : Multiset (Job Check)) + (s.pc t).todo)
      rw [ha, heq, hp]
      calc
        _ = (s.queue + (s.pc t).todo + s.executed : Multiset (Job Check)) +
              (∑ u, ((s.pc u).todo : Multiset (Job Check)) + x.todo) + skipped := by abel
        _ = _ := by rw [hme, ← hsu]; abel
    · by_cases hsk : skipped = 0
      · exact hnw fun hm => hne (by rw [hsk, hm, add_zero])
      · exact hmo (hs hsk)
  executed job hjob hr :=
    (hex job hjob hr).elim (fun hmm => hmo (h.executed job hmm hr)) id
  noticed hn := ha ▸ (hno hn).elim h.noticed id
  tickets := by rw [State.allAdded, he, ha, hna]; exact h.tickets
  ended := he ▸ h.ended

theorem Inv.setPc_of_free (h : Inv run s) (ht : (s.pc t).Free) (hx : x.Free) :
    Inv run (s.setPc t x) := by
  refine h.of_update rfl rfl rfl rfl ?_ ?_ ?_ ⟨0, ?_, fun h => absurd rfl h⟩ ?_ ?_ ?_
  · rw [ht.nNow, hx.nNow]; rfl
  · rw [hx.todo]; exact Nat.zero_le _
  · rw [hx.failed]; nofun
  · rw [ht.todo, hx.todo, add_zero]; rfl
  · exact fun job hj _ => .inl hj
  · exact fun hn => hn.setPc (by rw [ht.failed]; nofun)
  · exact fun hn => .inl (hn.of_setPc (by rw [hx.failed]; nofun))

omit [DecidableEq Worker] in
theorem Inv.mem_added (h : Inv run s) {job : Job Check} (hj : job ∈ (s.pc t).todo) : job ∈ s.added := by
  obtain ⟨sk, he, -⟩ := h.jobs
  have hm : job ∈ ∑ u, ((s.pc u).todo : Multiset (Job Check)) :=
    Multiset.mem_of_le (Finset.single_le_sum (fun _ _ => Multiset.zero_le _) (Finset.mem_univ t))
      (Multiset.mem_coe.mpr hj)
  rw [← Multiset.mem_coe, he]
  simp only [Multiset.mem_add]
  exact .inl (.inl (.inr hm))

theorem Inv.execute (h : Inv run s) {job : Job Check} {rest : List (Job Check)} {nNow : ℕ}
    {fOk : Bool} (ht : s.pc t = .working (job :: rest) nNow fOk) :
    Inv run (s.execute run t job rest nNow fOk) := by
  have hl := h.todo_le t
  have hj : job ∈ s.added := h.mem_added (t := t) (by simp [ht, Pc.todo])
  have hf : (s.pc t).failed = !fOk := by rw [ht]; rfl
  rw [ht] at hl
  simp only [Pc.todo, Pc.nNow, length_cons] at hl
  unfold State.execute
  split_ifs with ho
  · refine h.of_update (x := .working rest nNow (run job.check)) rfl rfl rfl rfl ?_ ?_ ?_
      ⟨0, ?_, fun h => absurd rfl h⟩ ?_ ?_ ?_
    · rw [ht]; rfl
    · simp only [Pc.todo, Pc.nNow]; omega
    · simp only [Pc.nNow]; omega
    · rw [ht]
      simp only [Pc.todo, State.setPc, ← Multiset.coe_add, ← Multiset.cons_coe,
        ← Multiset.singleton_add, Multiset.coe_nil]
      abel
    · intro job' hj' hr
      rcases mem_append.mp hj' with hm | hm
      · exact .inl hm
      · rw [mem_singleton.mp hm] at hr
        exact .inr (.inr ⟨t, by simp [State.setPc, Pc.failed, hr]⟩)
    · exact fun hn => hn.setPc (by rw [hf, ho]; nofun)
    · intro hn
      by_cases hr : run job.check = true
      · exact .inl (Noticed.of_setPc hn (by simp [Pc.failed, hr]))
      · exact .inr ⟨job, hj, eq_false_iff.mpr hr⟩
  · have hno : Noticed s := .inr ⟨t, by simp [hf, ho]⟩
    refine h.of_update (x := .working rest nNow fOk) rfl rfl rfl rfl ?_ ?_ ?_
      ⟨{job}, ?_, fun _ => ?_⟩ ?_ ?_ ?_
    · rw [ht]; rfl
    · simp only [Pc.todo, Pc.nNow]; omega
    · simp only [Pc.nNow]; omega
    · rw [ht]
      simp only [Pc.todo, State.setPc, ← Multiset.cons_coe, ← Multiset.singleton_add]
      abel
    · exact hno.setPc (by simp [Pc.failed, ho])
    · exact fun job' hm _ => .inl hm
    · exact fun hn => hn.setPc (by simp [Pc.failed, ho])
    · exact fun _ => .inl hno

theorem Inv.cleanUp (h : Inv run s) {nNow : ℕ} {fOk : Bool} (ht : s.pc t = .working [] nNow fOk) :
    Inv run ((s.cleanUp nNow fOk).setPc t .outside) := by
  have hfa : (s.pc t).failed = !fOk := by rw [ht]; rfl
  unfold State.cleanUp
  split_ifs with hn
  · have hnt := h.nTodo
    have hl : (s.pc t).nNow ≤ ∑ u, (s.pc u).nNow :=
      Finset.single_le_sum (f := fun u => (s.pc u).nNow) (fun _ _ => Nat.zero_le _)
        (Finset.mem_univ t)
    refine h.of_update (x := .outside) rfl rfl rfl rfl ?_ (Nat.zero_le _) nofun
      ⟨0, ?_, fun h => absurd rfl h⟩ (fun job hj _ => .inl hj) ?_ ?_
    · rw [ht, Pc.nNow_working] at hl ⊢
      simp only [State.setPc, Pc.Free.outside.nNow]
      omega
    · rw [ht, add_zero]; rfl
    · rintro (ha | ⟨u, hu⟩)
      · exact .inl (by simp [State.setPc, ha])
      · rcases eq_or_ne u t with rfl | hne
        · rw [hfa, not_eq_true'] at hu
          exact .inl (by simp [State.setPc, hu])
        · exact .inr ⟨u, by simpa [State.setPc, update_of_ne hne] using hu⟩
    · rintro (ha | ⟨u, hu⟩)
      · rcases and_eq_false_iff.mp ha with ha | ho
        · exact .inl (.inl ha)
        · exact .inl (.inr ⟨t, by rw [hfa, ho]; rfl⟩)
      · exact .inl (Noticed.of_setPc (t := t) (x := .outside) (.inr ⟨u, hu⟩) nofun)
  · have hfr : (s.pc t).Free := by
      have := h.nNow_pos t
      obtain rfl : nNow = 0 := by simpa using hn
      rw [ht] at this ⊢
      exact ⟨rfl, rfl, eq_false_iff.mpr fun hf => absurd (this hf) (by simp [Pc.nNow])⟩
    have h' := h.setPc_of_free hfr .outside
    exact ⟨h'.nTodo, h'.todo_le, h'.nNow_pos, h'.jobs, h'.executed, h'.noticed, h'.tickets,
      h'.ended⟩

omit [DecidableEq Worker] in
theorem Inv.free_of_nTodo (h : Inv run s) (hnt : s.nTodo = 0) (t : Option Worker) : (s.pc t).Free := by
  have hs : ∑ u, (s.pc u).nNow = 0 := by
    have := h.nTodo
    omega
  have hn : (s.pc t).nNow = 0 := Finset.sum_eq_zero_iff.mp hs t (Finset.mem_univ t)
  have hl := h.todo_le t
  have hp := h.nNow_pos t
  rw [hn] at hl hp
  exact ⟨hn, length_eq_zero_iff.mp (Nat.le_zero.mp hl),
    eq_false_iff.mpr fun hf => absurd (hp hf) (lt_irrefl 0)⟩

omit [DecidableEq Worker] in
theorem Inv.correct_of_nTodo (h : Inv run s) (hq : s.queue = []) (hnt : s.nTodo = 0) :
    Session.Correct run ⟨s.added, s.executed, s.fAllOk⟩ := by
  have hf := h.free_of_nTodo hnt
  obtain ⟨skipped, he, hs⟩ := h.jobs
  have hj : (s.added : Multiset (Job Check)) = s.executed + skipped := by
    simpa [hq, fun t => (hf t).todo] using he
  have hno : Noticed s ↔ s.fAllOk = false := by
    refine ⟨?_, .inl⟩
    rintro (ha | ⟨t, ht⟩)
    · exact ha
    · exact absurd (ht.symm.trans (hf t).failed) (by decide)
  have hnn : ¬ Noticed s → skipped = 0 := fun hn => by_contra fun hne => hn (hs hne)
  constructor
  · constructor
    · intro (ha : s.fAllOk = true) job (hjo : job ∈ s.added)
      have hn : ¬ Noticed s := by rw [hno, ha]; decide
      rw [← Multiset.mem_coe, hj, hnn hn, add_zero] at hjo
      exact not_eq_false _ |>.mp fun hr => hn (h.executed job hjo hr)
    · intro htr
      by_contra ha
      obtain ⟨job, hjo, hr⟩ := h.noticed (hno.mpr (eq_false_iff.mpr ha))
      exact absurd ((htr job hjo).symm.trans hr) (by decide)
  · exact Multiset.le_iff_exists_add.mpr ⟨skipped, hj⟩
  · intro htr
    have hn : ¬ Noticed s := fun hn => by
      obtain ⟨job, hjo, hr⟩ := h.noticed hn
      exact absurd ((htr job hjo).symm.trans hr) (by decide)
    rw [hnn hn, add_zero] at hj
    exact Multiset.coe_eq_coe.mp hj.symm

theorem Inv.process (h : Inv run s) (ht : (s.pc t).Free) : Inv run (s.process nBatchSize t) := by
  unfold State.process
  split_ifs with he hd
  · rw [List.isEmpty_iff] at he
    obtain ⟨-, hnt⟩ : t.isNone = true ∧ s.nTodo = 0 := by simpa using hd
    refine .of_free (forall_update (h.free_of_nTodo hnt) .outside) he hnt rfl rfl rfl ?_
      fun session hs => ?_
    · simpa [State.allAdded, State.setPc] using h.tickets
    · rcases mem_append.mp hs with hm | hm
      · exact h.ended session hm
      · rw [mem_singleton.mp hm]
        exact h.correct_of_nTodo he hnt
  · have h' := h.setPc_of_free ht .waiting
    exact ⟨h'.nTodo, h'.todo_le, h'.nNow_pos, h'.jobs, h'.executed, h'.noticed, h'.tickets,
      h'.ended⟩
  · obtain ⟨hp, hl⟩ := batch_le nBatchSize fun hni => he (List.isEmpty_iff.mpr hni)
    refine h.of_update (t := t) (x := .working (s.queue.take (s.batch nBatchSize))
      (s.batch nBatchSize) s.fAllOk) rfl rfl rfl rfl ?_ ?_ ?_ ⟨0, ?_, fun h => absurd rfl h⟩
      (fun job hj _ => .inl hj) ?_ ?_
    · simp only [ht.nNow, Pc.nNow_working, State.setPc, length_drop]
      omega
    · exact length_take_le _ _
    · exact fun _ => hp
    · rw [ht.todo]
      nth_rewrite 1 [← take_append_drop (s.batch nBatchSize) s.queue]
      simp only [State.setPc, Pc.todo, ← Multiset.coe_add, Multiset.coe_nil]
      abel
    · exact fun hn => hn.setPc (by rw [ht.failed]; nofun)
    · refine fun hn => .inl (Noticed.of_setPc hn fun hf => .inl ?_)
      simpa [Pc.failed] using hf

omit [DecidableEq Worker] in
theorem Inv.addChecks (h : Inv run s) (vChecks : List Check) : Inv run (s.addChecks vChecks) where
  nTodo := by
    have := h.nTodo
    simp only [State.addChecks, State.jobs, length_append, length_reverse, length_mapIdx]
    omega
  todo_le := h.todo_le
  nNow_pos := h.nNow_pos
  jobs := by
    obtain ⟨sk, he, hs⟩ := h.jobs
    refine ⟨sk, ?_, hs⟩
    simp only [State.addChecks, ← Multiset.coe_add, Multiset.coe_reverse, he]
    abel
  executed := h.executed
  noticed hn := by
    obtain ⟨job, hj, hr⟩ := h.noticed hn
    exact ⟨job, mem_append_left _ hj, hr⟩
  tickets := by
    have := h.tickets
    simp only [State.allAdded, State.addChecks, ← append_assoc, map_append,
      map_ticket_jobs, range_add] at this ⊢
    rw [this]
  ended := h.ended

theorem Inv.step (h : Inv run s) {a : Action Worker Check}
    (hs : s.step run nBatchSize a = some s') : Inv run s' := by
  -- only the enabled branch of each action is left
  cases a <;> simp only [State.step] at hs <;> split at hs <;> cases hs
  next ht => exact h.setPc_of_free (ht ▸ .outside) .entering
  next => exact ⟨h.1, h.2, h.3, h.4, h.5, h.6, h.7, h.8⟩
  next => exact h.addChecks _
  next ht => exact h.setPc_of_free (ht ▸ .outside) .entering
  next => exact ⟨h.1, h.2, h.3, h.4, h.5, h.6, h.7, h.8⟩
  next ht => exact h.execute ht
  next ht =>
    rw [← process_setPc (x := .outside)]
    exact (h.cleanUp ht).process (by simpa [State.setPc] using .outside)
  next t _ ht =>
    have h' : Inv run { s with nIdle := s.nIdle - 1 } :=
      ⟨h.1, h.2, h.3, h.4, h.5, h.6, h.7, h.8⟩
    exact h'.process (t := t) (ht ▸ .waiting)

theorem Reachable.inv (h : Reachable run nBatchSize s) : Inv run s := by
  induction h with
  | init => exact .init
  | step _ hs ih => exact ih.step hs

end Threads

end Steps

section Sessions
variable {run : Check → Bool} {nBatchSize : ℕ} {s s' : State Worker Check}

theorem flatMap_executed_le {sessions : List (Session Check)}
    (h : ∀ session ∈ sessions, session.Correct run) :
    (sessions.flatMap (·.executed) : Multiset (Job Check)) ≤ sessions.flatMap (·.added) := by
  induction sessions with
  | nil => exact le_rfl
  | cons session sessions ih =>
    simp only [flatMap_cons, ← Multiset.coe_add]
    exact add_le_add (h session mem_cons_self).executed_le
      (ih fun session' hm => h session' (mem_cons_of_mem _ hm))

variable [Fintype Worker]

omit [DecidableEq Worker] in
theorem Inv.executed_le (h : Inv run s) : (s.executed : Multiset (Job Check)) ≤ s.added := by
  obtain ⟨sk, he, -⟩ := h.jobs
  rw [he, add_right_comm]
  exact Multiset.le_add_left _ _

omit [DecidableEq Worker] in
theorem Inv.nodup_executed (h : Inv run s) : (s.ended.flatMap (·.executed) ++ s.executed).Nodup := by
  have ha : s.allAdded.Nodup := .of_map (·.ticket) (h.tickets ▸ nodup_range)
  rw [← Multiset.coe_nodup] at ha ⊢
  refine Multiset.nodup_of_le ?_ ha
  simp only [State.allAdded, ← Multiset.coe_add]
  exact add_le_add (flatMap_executed_le h.ended) h.executed_le

/-- Whatever the threads do: a call of `Wait` returns whether all checks of its session hold, no
check is executed twice or in another session, and all are executed if all hold. -/
theorem wait_iff_all (h : Reachable run nBatchSize s) : (∀ session ∈ s.ended,
      (session.fRet = true ↔ ∀ job ∈ session.added, run job.check = true) ∧
      (∀ job ∈ session.executed, job ∈ session.added) ∧
      ((∀ job ∈ session.added, run job.check = true) →
        session.executed.Perm session.added)) ∧
    (∀ job ∈ s.executed, job ∈ s.added) ∧
    (s.allAdded.map (·.ticket)).Nodup ∧
    (s.ended.flatMap (·.executed) ++ s.executed).Nodup := by
  have hi := h.inv
  refine ⟨fun session hs => ?_, fun job hj => ?_, ?_, hi.nodup_executed⟩
  · have hc := hi.ended session hs
    exact ⟨hc.fRet, fun job hj => Multiset.mem_of_le hc.executed_le hj, hc.executed_perm⟩
  · exact Multiset.mem_of_le hi.executed_le hj
  · rw [hi.tickets]
    exact nodup_range

omit [Fintype Worker] in
theorem Reachable.foldlM (actions : List (Action Worker Check)) (h : Reachable run nBatchSize s)
    (hr : actions.foldlM (State.step run nBatchSize) s = some s') :
    Reachable run nBatchSize s' := by
  induction actions generalizing s with
  | nil => exact Option.some.inj hr ▸ h
  | cons a actions ih =>
    rw [foldlM_cons, Option.bind_eq_bind, Option.bind_eq_some_iff] at hr
    obtain ⟨s₁, hs, hre⟩ := hr
    exact ih (h.step hs) hre

end Sessions

/-- A worker and the master share a session with a check that fails; all checks of the next session
hold. -/
def twoSessionsActions : List (Action Unit Bool) :=
  [.control, .thread (), .lock (some ()), .add [true, false], .wake (some ()), .wait, .lock none,
    .execute (some ()), .execute none, .lock (some ()), .lock none, .leave, .control, .add [true],
    .wait, .lock none, .execute none, .lock none]

def twoSessions : State Unit Bool := (twoSessionsActions.foldlM (State.step id 4) {}).getD {}

theorem wait_iff_all_twoSessions : twoSessions.ended.map (·.fRet) = [false, true] ∧
      ∀ session ∈ twoSessions.ended,
        session.fRet = true ↔ ∀ job ∈ session.added, job.check = true :=
  have hreach : Reachable id 4 twoSessions := .foldlM twoSessionsActions .init rfl
  ⟨rfl, fun session hsession => ((wait_iff_all hreach).1 session hsession).1⟩

end Palladium.CheckQueue

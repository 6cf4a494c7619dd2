import Mathlib.Tactic.IntervalCases
import Palladium.Lib.LeadsTo
import Palladium.Scheduler.SingleThreadedClient

/-! # Every callback is started

In an infinite run in which scheduled functions are run, callbacks end and threads that are inside
the client go on, every callback that was added is started.
-/

namespace Palladium.Scheduler
open List Trace
variable {Thread Callback : Type} [DecidableEq Thread]

/-- An infinite run in which nothing waits forever. -/
structure FairRun (Thread Callback : Type) [DecidableEq Thread] where
  state : ℕ → State Thread Callback
  act : ℕ → Option (Thread × Action Callback)
  init : state 0 = {}
  step : ∀ n, match act n with
    | none => state (n + 1) = state n
    | some (t, a) => (state n).step t a = some (state (n + 1))
  /-- a thread inside the client goes on -/
  proceeds : ∀ n t x rest, (state n).stack t = x :: rest → x.brief = true ∨ x = .raii →
    ∃ m ≥ n, ∃ place, act m = some (t, .proceed place)
  /-- a callback returns or throws -/
  callbacksEnd : ∀ n t, 0 < ((state n).stack t).countP Frame.isCallback →
    ∃ m ≥ n, ∃ rest, (state m).stack t = .raii :: rest
  /-- a scheduled function is run -/
  tasksRun : ∀ n, .processQueue ∈ (state n).taskQueue →
    ∃ m ≥ n, ∃ t tasks, act m = some (t, .service) ∧
      (state m).taskQueue = .processQueue :: tasks

section Moves
variable {s s' : State Thread Callback} {t u : Thread} {rest : List (Frame Callback)}

theorem Move.stack_of_ne (h : Move s t s') (hn : u ≠ t) : s'.stack u = s.stack u := by
  cases h <;> simp [State.setStack, Function.update_of_ne hn]

theorem Move.started_or_keeps (h : Move s t s') : s.started.length < s'.started.length ∨
      s'.started = s.started ∧ (s.callbacksPending ≠ [] → s'.callbacksPending ≠ []) ∧
        (s.areCallbacksRunning = false → s'.areCallbacksRunning = false) := by
  cases h with
  | start => exact .inl (by simp)
  | add f => exact .inr ⟨rfl, fun _ => by simp, id⟩
  | reset => exact .inr ⟨rfl, id, fun _ => rfl⟩
  | _ => exact .inr ⟨rfl, id, id⟩

theorem Move.of_raii (h : Move s t s') (hs : s.stack t = .raii :: rest) :
    s'.areCallbacksRunning = false ∨ s'.stack t = s.stack t := by
  cases h with
  | reset => exact .inl rfl
  | other => exact .inr rfl
  | add _ hc | empty hc => simp [hs, canCall] at hc
  | leave h hx => rw [hs] at h; rcases hx with rfl | rfl <;> cases h
  | take h | check h | schedule h | start h | finish h | throw h | emptied h | again h =>
    rw [hs] at h; cases h

theorem Move.of_maybeSchedule (h : Move s t s') (hs : s.stack t = .maybeSchedule :: rest)
    (hi : s.areCallbacksRunning = false) (hp : s.callbacksPending ≠ []) :
    s'.stack t = .schedule :: rest ∨ s'.stack t = s.stack t := by
  cases h with
  | check h =>
    rw [hs] at h
    cases h
    exact .inl (by simp [State.setStack])
  | leave _ _ hn => simp [hi, hp] at hn
  | other => exact .inr rfl
  | add _ hc | empty hc => simp [hs, canCall] at hc
  | take h | schedule h | start h | finish h | throw h | reset h | emptied h | again h =>
    rw [hs] at h; cases h

theorem Move.of_schedule (h : Move s t s') (hs : s.stack t = .schedule :: rest) :
    .processQueue ∈ s'.taskQueue ∨ s'.stack t = s.stack t := by
  cases h with
  | schedule => exact .inl (mem_insertTask.mpr (.inl rfl))
  | other => exact .inr rfl
  | add _ hc | empty hc => simp [hs, canCall] at hc
  | leave h hx => rw [hs] at h; rcases hx with rfl | rfl <;> cases h
  | take h | check h | start h | finish h | throw h | reset h | emptied h | again h =>
    rw [hs] at h; cases h

theorem Move.of_processQueue (h : Move s t s') (hs : s.stack t = .processQueue :: rest)
    (hi : s.areCallbacksRunning = false) (hp : s.callbacksPending ≠ []) :
    s.started.length < s'.started.length ∨ s'.stack t = s.stack t := by
  cases h with
  | start => exact .inl (by simp)
  | leave _ _ hn => simp [hi, hp] at hn
  | other => exact .inr rfl
  | add _ hc | empty hc => simp [hs, canCall] at hc
  | take h | check h | schedule h | finish h | throw h | reset h | emptied h | again h =>
    rw [hs] at h; cases h

theorem Move.added_prefix (h : Move s t s') : s.added <+: s'.added := by
  cases h with
  | add f => exact prefix_append _ _
  | _ => exact prefix_rfl

theorem Move.task_taken (h : Move s t s') (ht : .processQueue ∈ s.taskQueue) :
    .processQueue ∈ s'.taskQueue ∨ s'.stack t = [.processQueue] := by
  cases h with
  | take => exact .inr (by simp [State.setStack])
  | other hta => exact .inl (hta.mpr ht)
  | schedule => exact .inl (mem_insertTask.mpr (.inr ht))
  | _ => exact .inl ht

theorem proceed_stack_ne {place : ℕ} (h : s.proceed t place = some s') : s'.stack t ≠ s.stack t := by
  intro he
  unfold State.proceed at h
  split at h
  next => cases h
  all_goals
    next hs =>
      rw [hs] at he
      repeat' split at h
      all_goals
        obtain rfl := Option.some.inj h
        simp [State.setStack] at he

end Moves

def Waits (k : ℕ) (s : State Thread Callback) : Prop :=
  s.started.length = k ∧ s.callbacksPending ≠ []

/-- Callbacks wait, none runs, and `k` have been started. -/
def Idle (k : ℕ) (s : State Thread Callback) : Prop :=
  s.started.length = k ∧ s.callbacksPending ≠ [] ∧ s.areCallbacksRunning = false

def Started (k : ℕ) (s : State Thread Callback) : Prop := k < s.started.length

variable {s s' : State Thread Callback}

theorem Idle.of_move {k : ℕ} {t : Thread} (h : Idle k s) (hm : Move s t s') :
    Idle k s' ∨ Started k s' := by
  obtain ⟨hk, hpe, hi⟩ := h
  rcases hm.started_or_keeps with hs | ⟨hsa, hp, hr⟩
  · exact .inr (hk ▸ hs)
  · exact .inl ⟨hsa ▸ hk, hp hpe, hr hi⟩

theorem Waits.of_move {k : ℕ} {t : Thread} (h : Waits k s) (hm : Move s t s') :
    Waits k s' ∨ Started k s' := by
  obtain ⟨hk, hpe⟩ := h
  rcases hm.started_or_keeps with hs | ⟨hsa, hp, -⟩
  · exact .inr (hk ▸ hs)
  · exact .inl ⟨hsa ▸ hk, hp hpe⟩

namespace FairRun
variable (r : FairRun Thread Callback) {k : ℕ} {t : Thread} (n : ℕ)

theorem move_or_eq : r.state (n + 1) = r.state n ∨ ∃ t, Move (r.state n) t (r.state (n + 1)) := by
  have h := r.step n
  cases ha : r.act n with
  | none => rw [ha] at h; exact .inl h
  | some p =>
    rw [ha] at h
    exact .inr ⟨p.1, .of_step h⟩

theorem inv : Inv (r.state n) := by
  induction n with
  | zero => rw [r.init]; exact .init
  | succ n ih =>
    rcases r.move_or_eq n with he | ⟨t, hm⟩
    · rwa [he]
    · exact ih.of_move hm

variable {P Q : State Thread Callback → Prop}

/-- A thread that is inside the client makes the move that leads on, unless that happened
before. -/
theorem leadsTo_of_thread {x : Frame Callback} (hx : x.brief ∨ x = .raii)
    (hP : ∀ s, P s → ∃ rest, s.stack t = x :: rest)
    (hs : ∀ n, P (r.state n) → (r.state (n + 1)).stack t = (r.state n).stack t → P (r.state (n + 1)) ∨ Q (r.state (n + 1)))
    (hmo : ∀ s s', P s → Move s t s' → Q s' ∨ s'.stack t = s.stack t) : LeadsTo r.state P Q := by
  apply leadsTo_of_helpful_step
  · intro n hn
    rcases r.move_or_eq n with he | ⟨u, hu⟩
    · exact hs n hn (by rw [he])
    · rcases eq_or_ne t u with rfl | hne
      · exact (hmo _ _ hn hu).elim .inr (hs n hn)
      · exact hs n hn (hu.stack_of_ne hne)
  · intro n hn
    obtain ⟨rest, hst⟩ := hP _ hn
    obtain ⟨m, hm, place, ha⟩ := r.proceeds n t x rest hst hx
    refine ⟨m, hm, fun hPm => ?_⟩
    have hsp := r.step m
    rw [ha] at hsp
    exact (hmo _ _ hPm (.of_step hsp)).resolve_right (proceed_stack_ne hsp)

theorem keeps_or_started (hk : ∀ {s s' t}, P s → Move s t s' → P s' ∨ Started k s')
    (h : P (r.state n)) : P (r.state (n + 1)) ∨ Started k (r.state (n + 1)) := by
  rcases r.move_or_eq n with he | ⟨t, hm⟩
  · exact .inl (he ▸ h)
  · exact hk h hm

/-- A thread with `x` on top comes to make its move before `P` can end otherwise. -/
theorem leadsTo_started_of_top {x : Frame Callback} (hx : x.brief ∨ x = .raii)
    (hk : ∀ {s s' t}, P s → Move s t s' → P s' ∨ Started k s')
    (hm : ∀ {s s' rest}, P s → s.stack t = x :: rest → Move s t s' → Q s' ∨ s'.stack t = s.stack t)
    (hQ : LeadsTo r.state (fun s => P s ∧ Q s) (Started k)) :
    LeadsTo r.state (fun s => P s ∧ ∃ rest, s.stack t = x :: rest) (Started k) := by
  have hmd : LeadsTo r.state (fun s => P s ∧ ∃ rest, s.stack t = x :: rest)
      (fun s => P s ∧ Q s ∨ Started k s) := by
    refine r.leadsTo_of_thread hx (fun s h => h.2) (fun n h hs => ?_) ?_
    · exact (r.keeps_or_started n hk h.1).imp (fun hP => ⟨hP, hs ▸ h.2⟩) .inr
    · rintro s s' ⟨hP, rest, hst⟩ hm'
      rcases hm hP hst hm' with hQ | hs
      · exact .inl ((hk hP hm').imp_left fun h => ⟨h, hQ⟩)
      · exact .inr hs
  exact hmd.trans_or hQ

theorem processQueue_leadsTo_started (k : ℕ) (t : Thread) :
    LeadsTo r.state (fun s => Idle k s ∧ ∃ rest, s.stack t = .processQueue :: rest)
      (Started k) := by
  refine r.leadsTo_started_of_top (.inl rfl) Idle.of_move (fun h hst hm => ?_)
    fun n h => ⟨n, le_rfl, h.2⟩
  exact (hm.of_processQueue hst h.2.2 h.2.1).imp_left fun hs => h.1 ▸ hs

theorem task_leadsTo_started (k : ℕ) :
    LeadsTo r.state (fun s => Idle k s ∧ .processQueue ∈ s.taskQueue) (Started k) := by
  have htn : LeadsTo r.state (fun s => Idle k s ∧ .processQueue ∈ s.taskQueue)
      (fun s => (∃ t, Idle k s ∧ ∃ rest, s.stack t = .processQueue :: rest) ∨ Started k s) := by
    apply leadsTo_of_helpful_step
    · rintro n ⟨hi, hta⟩
      rcases r.keeps_or_started n Idle.of_move hi with hi' | hs
      · rcases r.move_or_eq n with he | ⟨t, hmo⟩
        · exact .inl ⟨hi', he ▸ hta⟩
        · exact (hmo.task_taken hta).imp (fun h => ⟨hi', h⟩)
            fun h => .inl ⟨t, hi', [], h⟩
      · exact .inr (.inr hs)
    · rintro n ⟨-, hta⟩
      obtain ⟨m, hm, t, tasks, ha, hts⟩ := r.tasksRun n hta
      refine ⟨m, hm, ?_⟩
      rintro ⟨hi, -⟩
      rcases r.keeps_or_started m Idle.of_move hi with hi' | hs
      · refine .inl ⟨t, hi', [], ?_⟩
        have hst := r.step m
        rw [ha] at hst
        simp only [State.step, hts] at hst
        split at hst
        next => rw [← Option.some.inj hst]; simp [State.setStack]
        next h => cases h
        next => cases hst
      · exact .inr hs
  refine htn.trans_or fun n hta => ?_
  obtain ⟨t, ht⟩ := hta
  exact r.processQueue_leadsTo_started k t n ht

theorem schedule_leadsTo_started (k : ℕ) (t : Thread) :
    LeadsTo r.state (fun s => Idle k s ∧ ∃ rest, s.stack t = .schedule :: rest)
      (Started k) := by
  exact r.leadsTo_started_of_top (.inl rfl) Idle.of_move (fun _ hs hm =>
    hm.of_schedule hs) (r.task_leadsTo_started k)

theorem maybeSchedule_leadsTo_started (k : ℕ) (t : Thread) :
    LeadsTo r.state (fun s => Idle k s ∧ ∃ rest, s.stack t = .maybeSchedule :: rest)
      (Started k) := by
  refine r.leadsTo_started_of_top (.inl rfl) Idle.of_move (fun h hs hm => ?_)
    (r.schedule_leadsTo_started k t)
  exact (hm.of_maybeSchedule hs h.2.2 h.2.1).imp_left fun hs' => ⟨_, hs'⟩

theorem idle_leadsTo_started (k : ℕ) : LeadsTo r.state (Idle k) (Started k) := by
  intro n hi
  rcases (r.inv n).scheduled hi.2.2 hi.2.1 with ht | ⟨t, x, rest, hs, hx⟩
  · exact r.task_leadsTo_started k n ⟨hi, ht⟩
  · cases x with
    | maybeSchedule => exact r.maybeSchedule_leadsTo_started k t n ⟨hi, rest, hs⟩
    | schedule => exact r.schedule_leadsTo_started k t n ⟨hi, rest, hs⟩
    | processQueue => exact r.processQueue_leadsTo_started k t n ⟨hi, rest, hs⟩
    | callback | raii | emptyQueue => cases hx

theorem raii_leadsTo_started (k : ℕ) (t : Thread) :
    LeadsTo r.state (fun s => Waits k s ∧ ∃ rest, s.stack t = .raii :: rest) (Started k) := by
  exact r.leadsTo_started_of_top (.inr rfl) Waits.of_move (fun _ hs hm =>
    hm.of_raii hs) fun n h => r.idle_leadsTo_started k n ⟨h.1.1, h.1.2, h.2⟩

theorem waits_leadsTo_started (k : ℕ) : LeadsTo r.state (Waits k) (Started k) := by
  intro n hw
  obtain ⟨owner, hr, hco⟩ := (r.inv n).owner
  cases owner with
  | none => exact r.idle_leadsTo_started k n ⟨hw.1, hw.2, hr⟩
  | some t =>
    have hra : 0 < ((r.state n).stack t).countP Frame.isRaii := by simp [hco t]
    rcases ((r.inv n).proper t).raii_or_callback hra with ht | hc
    · exact r.raii_leadsTo_started k t n ⟨hw, ht⟩
    · obtain ⟨m, hm, ht⟩ := r.callbacksEnd n t hc
      rcases holds_or_reached (fun n => r.keeps_or_started n Waits.of_move) hm hw with
        hw' | hs
      · obtain ⟨m', hm', hs⟩ := r.raii_leadsTo_started k t m ⟨hw', ht⟩
        exact ⟨m', le_trans hm hm', hs⟩
      · exact hs

theorem added_prefix {n m : ℕ} (h : n ≤ m) : (r.state n).added <+: (r.state m).added := by
  induction m, h using Nat.le_induction with
  | base => exact prefix_rfl
  | succ m _ ih =>
    rcases r.move_or_eq m with he | ⟨t, hm⟩
    · rwa [he]
    · exact ih.trans hm.added_prefix

theorem exists_started_length {k : ℕ} (hk : k ≤ (r.state n).added.length) :
    ∃ m ≥ n, k ≤ (r.state m).started.length := by
  induction k with
  | zero => exact ⟨n, le_rfl, Nat.zero_le _⟩
  | succ k ih =>
    obtain ⟨m, hm, hl⟩ := ih (by omega)
    rcases hl.lt_or_eq with hlt | he
    · exact ⟨m, hm, hlt⟩
    · have ha := (r.added_prefix hm).length_le
      rw [(r.inv m).order, length_append] at ha
      have hp : (r.state m).callbacksPending ≠ [] := by
        rw [← length_pos_iff]
        omega
      obtain ⟨m', hm', hs⟩ := r.waits_leadsTo_started k m ⟨he.symm, hp⟩
      exact ⟨m', le_trans hm hm', hs⟩

theorem exists_added_prefix_started : ∃ m ≥ n, (r.state n).added <+: (r.state m).started := by
  obtain ⟨m, hm, hl⟩ := r.exists_started_length n le_rfl
  have hs : (r.state m).started <+: (r.state m).added := by
    rw [(r.inv m).order]
    exact prefix_append _ _
  exact ⟨m, hm, prefix_of_prefix_length_le (r.added_prefix hm) hs hl⟩

end FairRun

def Frame.inProcessQueue : Frame Callback → Bool
  | .processQueue | .callback _ | .raii => true
  | _ => false

/-- The call is one of `MaybeScheduleProcessQueue`. -/
def Frame.inMaybeSchedule : Frame Callback → Bool
  | .maybeSchedule | .schedule => true
  | _ => false

section Serial
variable {s : State Thread Callback}

theorem Inv.countP_callback_le_one (h : Inv s) (t : Thread) :
    (s.stack t).countP Frame.isCallback ≤ 1 := by
  obtain ⟨owner, -, hc⟩ := h.owner
  have hl := (h.proper t).countP_callback_le
  have ht := hc t
  split_ifs at ht <;> omega

theorem Inv.eq_of_callback (h : Inv s) {t u : Thread} (ht : 0 < (s.stack t).countP Frame.isCallback)
    (hu : 0 < (s.stack u).countP Frame.isCallback) : t = u := by
  obtain ⟨_, rfl, -, hc⟩ := h.running_of_callback ht
  have hl := (h.proper u).countP_callback_le
  have := hc u
  split_ifs at this with he
  · exact he
  · omega

theorem Inv.process_scheduled (h : Inv s) (hp : s.callbacksPending ≠ []) :
    .processQueue ∈ s.taskQueue ∨ ∃ t, ∃ x ∈ s.stack t, x.inProcessQueue ∨ x.inMaybeSchedule := by
  obtain ⟨owner, hr, hc⟩ := h.owner
  cases owner with
  | none =>
    refine (h.scheduled hr hp).imp_right ?_
    rintro ⟨t, x, rest, hs, hx⟩
    refine ⟨t, x, hs ▸ mem_cons_self, ?_⟩
    cases x with
    | maybeSchedule | schedule => exact .inr rfl
    | processQueue => exact .inl rfl
    | callback | raii | emptyQueue => cases hx
  | some t =>
    have hpo : 0 < (s.stack t).countP Frame.isRaii := by simp [hc t]
    obtain ⟨x, hx, hra⟩ := countP_pos_iff.mp hpo
    refine .inr ⟨t, x, hx, .inl ?_⟩
    cases x with
    | raii => rfl
    | _ => cases hra

end Serial

/-- At most one callback runs at a time; callbacks start in the order in which they were added;
while one waits, a call that takes it or schedules one that does is on its way. -/
theorem callbacks_serial (Thread Callback : Type) [DecidableEq Thread] :
    (∀ s : State Thread Callback, Reachable s →
      (∀ t, (s.stack t).countP Frame.isCallback ≤ 1) ∧
      (∀ t u, 0 < (s.stack t).countP Frame.isCallback →
        0 < (s.stack u).countP Frame.isCallback → t = u) ∧
      s.added = s.started ++ s.callbacksPending ∧
      (s.callbacksPending ≠ [] → .processQueue ∈ s.taskQueue ∨
        ∃ t, ∃ x ∈ s.stack t, x.inProcessQueue = true ∨ x.inMaybeSchedule = true)) ∧
    ∀ (r : FairRun Thread Callback) (n : ℕ),
      ∃ m ≥ n, (r.state n).added <+: (r.state m).started := by
  refine ⟨fun s hs => ?_, fun r => r.exists_added_prefix_started⟩
  have hi := hs.inv
  exact ⟨hi.countP_callback_le_one, fun _ _ => hi.eq_of_callback, hi.order, hi.process_scheduled⟩

def throwingActs : List (Action Unit) :=
  [.addToProcessQueue (), .proceed 0, .proceed 0, .service, .proceed 0, .throw, .proceed 0,
    .proceed 0]

def throwingStates : ℕ → State Unit Unit
  | 0 => {}
  | n + 1 => match throwingActs[n]? with
    | none => throwingStates n
    | some a => ((throwingStates n).step () a).getD {}

theorem throwingStates_of_le {n : ℕ} (h : 8 ≤ n) : throwingStates n = throwingStates 8 := by
  induction n, h using Nat.le_induction with
  | base => rfl
  | succ n hn ih =>
    have hno : throwingActs[n]? = none := List.getElem?_eq_none hn
    rw [throwingStates, hno, ih]

def throwingRun : FairRun Unit Unit where
  state := throwingStates
  act n := throwingActs[n]?.map ((), ·)
  init := rfl
  step n := by
    rcases Nat.lt_or_ge n 8 with hn | hn
    · interval_cases n <;> rfl
    · have hnone : throwingActs[n]? = none := List.getElem?_eq_none hn
      simp [hnone, throwingStates]
  proceeds n t x rest hstack _ := by
    refine ⟨7, ?_, 0, rfl⟩
    by_contra hn
    rw [throwingStates_of_le (by omega)] at hstack
    cases hstack
  callbacksEnd n t hcallback := by
    refine ⟨6, ?_, [], rfl⟩
    by_contra hn
    rcases (show n = 7 ∨ 8 ≤ n by omega) with rfl | hn
    · cases hcallback
    · rw [throwingStates_of_le hn] at hcallback
      cases hcallback
  tasksRun n htask := by
    refine ⟨3, ?_, (), [], rfl, rfl⟩
    by_contra hn
    rcases Nat.lt_or_ge n 8 with hn' | hn'
    · interval_cases n <;> first | omega | cases htask
    · rw [throwingStates_of_le hn'] at htask
      cases htask

theorem callbacks_serial_throwing : ∃ m ≥ 1, (throwingRun.state 1).added = [()] ∧
      (throwingRun.state 1).added <+: (throwingRun.state m).started ∧
      (throwingRun.state 1).added = (throwingRun.state 1).started ++
        (throwingRun.state 1).callbacksPending := by
  have hr : Reachable (throwingRun.state 1) := .step (a := .addToProcessQueue ()) .init rfl
  obtain ⟨m, hm, hp⟩ := (callbacks_serial Unit Unit).2 throwingRun 1
  exact ⟨m, hm, rfl, hp, ((callbacks_serial Unit Unit).1 _ hr).2.2.1⟩

/-- Between the two critical sections of `AddToProcessQueue` a callback waits, none runs, and
`ProcessQueue` is neither scheduled nor in progress. -/
theorem not_scheduled_in_addToProcessQueue :
    ∃ s : State Unit Unit, Reachable s ∧ s.callbacksPending ≠ [] ∧
      (∀ t, (s.stack t).countP Frame.isCallback = 0) ∧ .processQueue ∉ s.taskQueue ∧
      ∀ t, ∀ x ∈ s.stack t, x.inProcessQueue = false :=
  ⟨throwingStates 1, .step (a := .addToProcessQueue ()) .init rfl, by decide,
    fun () => by decide, by decide, fun () => by decide⟩

end Palladium.Scheduler

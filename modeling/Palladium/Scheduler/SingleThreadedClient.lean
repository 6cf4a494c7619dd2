import Mathlib.Data.List.Basic
import Mathlib.Order.Nat

/-! # Callbacks that run one at a time

A `SingleThreadedSchedulerClient` lets a scheduler with any number of threads run its callbacks.
-/

namespace Palladium.Scheduler
open Bool List

/-- A call that a thread is in, at the point where it goes on. -/
inductive Frame (Callback : Type)
  /-- before the lock of `MaybeScheduleProcessQueue` -/
  | maybeSchedule
  /-- after the checks of `MaybeScheduleProcessQueue`, before `schedule` -/
  | schedule
  /-- before the lock of `ProcessQueue` -/
  | processQueue
  /-- inside a callback -/
  | callback (f : Callback)
  /-- before the lock in the destructor of `RAIICallbacksRunning` -/
  | raii
  /-- in `EmptyQueue` after a call of `ProcessQueue` -/
  | emptyQueue
  deriving DecidableEq

open Frame

/-- A function the scheduler is to call: `ProcessQueue` of this client, or something else. -/
inductive Task | processQueue | other
  deriving DecidableEq

/-- The variables of the client and the scheduler, the calls each thread is in, and the callbacks
added and started. -/
structure State (Thread Callback : Type) where
  callbacksPending : List Callback := []
  areCallbacksRunning : Bool := false
  taskQueue : List Task := []
  stack : Thread → List (Frame Callback) := fun _ => []
  added : List Callback := []
  started : List Callback := []

inductive Action (Callback : Type)
  | addToProcessQueue (f : Callback)
  | emptyQueue
  /-- take the first task of the scheduler's queue and call it -/
  | service
  /-- put another function on the scheduler's queue -/
  | scheduleOther (place : ℕ)
  /-- go on in the innermost call; a callback returns -/
  | proceed (place : ℕ)
  /-- the callback throws -/
  | throw

def insertTask (place : ℕ) (task : Task) (tasks : List Task) : List Task :=
  tasks.take place ++ task :: tasks.drop place

def canCall {Callback : Type} : List (Frame Callback) → Bool
  | [] | .callback _ :: _ => true
  | _ => false

variable {Thread Callback : Type} [DecidableEq Thread]
namespace State
variable (s : State Thread Callback) (t : Thread)

def setStack (stack : List (Frame Callback)) : State Thread Callback :=
  { s with stack := Function.update s.stack t stack }

/-- The next critical section of the innermost call. -/
def proceed (place : ℕ) : Option (State Thread Callback) :=
  match s.stack t with
  | [] => none
  | .maybeSchedule :: rest =>
    if s.areCallbacksRunning || s.callbacksPending.isEmpty then some (s.setStack t rest)
    else some (s.setStack t (.schedule :: rest))
  | .schedule :: rest =>
    some { s.setStack t rest with taskQueue := insertTask place .processQueue s.taskQueue }
  | .processQueue :: rest =>
    if s.areCallbacksRunning then some (s.setStack t rest)
    else match s.callbacksPending with
      | [] => some (s.setStack t rest)
      | f :: pending => some { s.setStack t (.callback f :: .raii :: rest) with
          areCallbacksRunning := true
          callbacksPending := pending
          started := s.started ++ [f] }
  | .callback _ :: rest => some (s.setStack t rest)
  | .raii :: rest =>
    some { s.setStack t (.maybeSchedule :: rest) with areCallbacksRunning := false }
  | .emptyQueue :: rest =>
    if s.callbacksPending.isEmpty then some (s.setStack t rest)
    else some (s.setStack t (.processQueue :: .emptyQueue :: rest))

def step : Action Callback →
    Option (State Thread Callback)
  | .addToProcessQueue f =>
    if canCall (s.stack t) then some { s.setStack t (.maybeSchedule :: s.stack t) with
      callbacksPending := s.callbacksPending ++ [f]
      added := s.added ++ [f] }
    else none
  | .emptyQueue =>
    if canCall (s.stack t) then some (s.setStack t (.processQueue :: .emptyQueue :: s.stack t))
    else none
  | .service =>
    match s.stack t, s.taskQueue with
    | [], .processQueue :: tasks =>
      some { s.setStack t [.processQueue] with taskQueue := tasks }
    | [], .other :: tasks => some { s with taskQueue := tasks }
    | _, _ => none
  | .scheduleOther place =>
    if canCall (s.stack t) then some { s with taskQueue := insertTask place .other s.taskQueue }
    else none
  | .proceed place => s.proceed t place
  | .throw =>
    -- the exception leaves every call below once the destructor is done
    match s.stack t with
    | .callback _ :: .raii :: _ => some (s.setStack t [.raii])
    | _ => none

end State

/-- The states that any interleaving of the threads leads to. -/
inductive Reachable : State Thread Callback → Prop
  | init : Reachable {}
  | step {s s' : State Thread Callback} {t : Thread} {a : Action Callback} :
      Reachable s → s.step t a = some s' → Reachable s'

/-- The effects of the steps of a thread, and when they happen. -/
inductive Move (s : State Thread Callback) (t : Thread) : State Thread Callback → Prop
  | add (f : Callback) (hcall : canCall (s.stack t) = true) :
      Move s t { s.setStack t (.maybeSchedule :: s.stack t) with
        callbacksPending := s.callbacksPending ++ [f]
        added := s.added ++ [f] }
  | empty (hcall : canCall (s.stack t) = true) :
      Move s t (s.setStack t (.processQueue :: .emptyQueue :: s.stack t))
  | take {tasks : List Task} (h : s.stack t = [])
      (htasks : s.taskQueue = .processQueue :: tasks) :
      Move s t { s.setStack t [.processQueue] with taskQueue := tasks }
  | other {tasks : List Task} (htasks : .processQueue ∈ tasks ↔ .processQueue ∈ s.taskQueue) :
      Move s t { s with taskQueue := tasks }
  | leave {x : Frame Callback} {rest : List (Frame Callback)} (h : s.stack t = x :: rest)
      (hx : x = .maybeSchedule ∨ x = .processQueue)
      (hnothing : s.areCallbacksRunning = true ∨ s.callbacksPending = []) :
      Move s t (s.setStack t rest)
  | check {rest : List (Frame Callback)} (h : s.stack t = .maybeSchedule :: rest) :
      Move s t (s.setStack t (.schedule :: rest))
  | schedule {rest : List (Frame Callback)} (h : s.stack t = .schedule :: rest) (place : ℕ) :
      Move s t { s.setStack t rest with taskQueue := insertTask place .processQueue s.taskQueue }
  | start {rest : List (Frame Callback)} {f : Callback} {pending : List Callback}
      (h : s.stack t = .processQueue :: rest) (hidle : s.areCallbacksRunning = false)
      (hpending : s.callbacksPending = f :: pending) :
      Move s t { s.setStack t (.callback f :: .raii :: rest) with
        areCallbacksRunning := true
        callbacksPending := pending
        started := s.started ++ [f] }
  | finish {f : Callback} {rest : List (Frame Callback)} (h : s.stack t = .callback f :: rest) :
      Move s t (s.setStack t rest)
  | throw {f : Callback} {rest : List (Frame Callback)}
      (h : s.stack t = .callback f :: .raii :: rest) : Move s t (s.setStack t [.raii])
  | reset {rest : List (Frame Callback)} (h : s.stack t = .raii :: rest) :
      Move s t { s.setStack t (.maybeSchedule :: rest) with areCallbacksRunning := false }
  | emptied {rest : List (Frame Callback)} (h : s.stack t = .emptyQueue :: rest)
      (hempty : s.callbacksPending = []) : Move s t (s.setStack t rest)
  | again {rest : List (Frame Callback)} (h : s.stack t = .emptyQueue :: rest) :
      Move s t (s.setStack t (.processQueue :: .emptyQueue :: rest))

section Moves
variable {s s' : State Thread Callback} {t : Thread}

theorem mem_insertTask {place : ℕ} {task x : Task} {tasks : List Task} :
    x ∈ insertTask place task tasks ↔ x = task ∨ x ∈ tasks := by
  rw [insertTask, mem_append, mem_cons]
  conv_rhs => rw [← take_append_drop place tasks, mem_append]
  exact or_left_comm

theorem Move.of_proceed {place : ℕ} (h : s.proceed t place = some s') : Move s t s' := by
  unfold State.proceed at h
  split at h
  next => cases h
  next hs =>
    split at h
    next hc =>
      rw [or_eq_true, List.isEmpty_iff] at hc
      exact Option.some.inj h ▸ .leave hs (.inl rfl) hc
    next => exact Option.some.inj h ▸ .check hs
  next hs => exact Option.some.inj h ▸ .schedule hs place
  next hs =>
    split at h
    next hr => exact Option.some.inj h ▸ .leave hs (.inr rfl) (.inl hr)
    next hi =>
      split at h
      next he => exact Option.some.inj h ▸ .leave hs (.inr rfl) (.inr he)
      next hp =>
        exact Option.some.inj h ▸ .start hs (eq_false_iff.mpr hi) hp
  next hs => exact Option.some.inj h ▸ .finish hs
  next hs => exact Option.some.inj h ▸ .reset hs
  next hs =>
    split at h
    next he => exact Option.some.inj h ▸ .emptied hs (List.isEmpty_iff.mp he)
    next => exact Option.some.inj h ▸ .again hs

theorem Move.of_step {a : Action Callback} (h : s.step t a = some s') : Move s t s' := by
  cases a with
  | addToProcessQueue f =>
    simp only [State.step] at h
    split at h
    next hc => exact Option.some.inj h ▸ .add f hc
    next => cases h
  | emptyQueue =>
    simp only [State.step] at h
    split at h
    next hc => exact Option.some.inj h ▸ .empty hc
    next => cases h
  | service =>
    simp only [State.step] at h
    split at h
    next hs ht => exact Option.some.inj h ▸ .take hs ht
    next _ ht => exact Option.some.inj h ▸ .other (by simp [ht])
    next => cases h
  | scheduleOther place =>
    simp only [State.step] at h
    split at h
    next => exact Option.some.inj h ▸ .other (by simp [mem_insertTask])
    next => cases h
  | proceed place => exact .of_proceed h
  | throw =>
    simp only [State.step] at h
    split at h
    next hs => exact Option.some.inj h ▸ .throw hs
    next => cases h

end Moves

def Frame.brief : Frame Callback → Bool
  | .maybeSchedule | .schedule | .processQueue => true
  | _ => false

def Frame.isRaii : Frame Callback → Bool
  | .raii => true
  | _ => false

def Frame.isCallback : Frame Callback → Bool
  | .callback _ => true
  | _ => false

/-- Calls that may wait for another call. A callback is called by `ProcessQueue` only, and the
destructor waits for the callback only. -/
inductive Waiting : List (Frame Callback) → Prop
  | nil : Waiting []
  | emptyQueue {rest : List (Frame Callback)} (h : Waiting rest) (hrest : ∀ l, rest ≠ .raii :: l) :
      Waiting (.emptyQueue :: rest)
  | raii {rest : List (Frame Callback)} (h : Waiting rest) (hrest : ∀ l, rest ≠ .raii :: l) :
      Waiting (.raii :: rest)
  | callback {f : Callback} {rest : List (Frame Callback)} (h : Waiting (.raii :: rest)) :
      Waiting (.callback f :: .raii :: rest)

/-- The calls of a thread: only the innermost one may be brief. -/
inductive Proper : List (Frame Callback) → Prop
  | waiting {l : List (Frame Callback)} (h : Waiting l) : Proper l
  | brief {x : Frame Callback} {rest : List (Frame Callback)} (hx : x.brief = true)
      (h : Waiting rest) (hrest : ∀ l, rest ≠ .raii :: l) : Proper (x :: rest)

def AboutToProcess (s : State Thread Callback) : Prop :=
  ∃ t x rest, s.stack t = x :: rest ∧ x.brief = true

structure Inv (s : State Thread Callback) : Prop where
  proper : ∀ t, Proper (s.stack t)
  owner : ∃ owner : Option Thread, s.areCallbacksRunning = owner.isSome ∧
    ∀ t, (s.stack t).countP isRaii = if owner = some t then 1 else 0
  order : s.added = s.started ++ s.callbacksPending
  scheduled : s.areCallbacksRunning = false → s.callbacksPending ≠ [] →
    .processQueue ∈ s.taskQueue ∨ AboutToProcess s

section Stacks
variable {l rest : List (Frame Callback)} {x : Frame Callback} {f : Callback}

theorem Proper.tail (h : Proper (x :: rest)) : Waiting rest := by
  cases h with
  | brief _ h => exact h
  | waiting h =>
    cases h with
    | emptyQueue h | raii h | callback h => exact h

theorem Proper.tail_ne_raii (h : Proper (x :: rest)) (hx : x.isCallback = false) :
    ∀ l, rest ≠ .raii :: l := by
  cases h with
  | brief _ _ hr => exact hr
  | waiting h =>
    cases h with
    | emptyQueue _ hr | raii _ hr => exact hr
    | callback _ => cases hx

theorem ne_raii_of_canCall (hc : canCall l) : ∀ rest, l ≠ .raii :: rest := by
  rintro rest rfl
  cases hc

theorem Proper.waiting_of_canCall (h : Proper l) (hc : canCall l) : Waiting l := by
  cases h with
  | waiting h => exact h
  | @brief x _ hx _ _ => cases x <;> simp [canCall, Frame.brief] at hc hx

theorem Proper.countP_callback_le (h : Proper l) : l.countP isCallback ≤ l.countP isRaii := by
  have hw : ∀ {l : List (Frame Callback)}, Waiting l → l.countP isCallback ≤ l.countP isRaii ∧
        ∀ rest, l = .raii :: rest → l.countP isCallback < l.countP isRaii := by
    intro l h
    induction h with
    | nil => exact ⟨le_rfl, fun _ h => by cases h⟩
    | emptyQueue _ _ ih =>
      simp only [countP_cons, isCallback, isRaii]
      exact ⟨by simpa using ih.1, fun _ h => by cases h⟩
    | raii _ _ ih =>
      simp only [countP_cons, isCallback, isRaii]
      have := ih.1
      exact ⟨by simp; omega, fun _ _ => by simp; omega⟩
    | callback _ ih =>
      have := ih.2 _ rfl
      simp only [countP_cons, isCallback, isRaii] at this ⊢
      exact ⟨by simp at this ⊢; omega, fun _ h => by cases h⟩
  cases h with
  | waiting h => exact (hw h).1
  | @brief x _ hx h _ =>
    have := (hw h).1
    cases x <;> simp_all [Frame.brief, countP_cons, isCallback, isRaii]

theorem Proper.raii_or_callback (h : Proper l) (hr : 0 < l.countP isRaii) :
    (∃ rest, l = .raii :: rest) ∨ 0 < l.countP isCallback := by
  have hw : ∀ {l : List (Frame Callback)}, Waiting l → 0 < l.countP isRaii →
      (∃ rest, l = .raii :: rest) ∨ 0 < l.countP isCallback := by
    intro l h
    induction h with
    | nil => exact fun h => absurd h (by simp)
    | emptyQueue _ hre ih =>
      intro hr
      rw [countP_cons_of_neg (by simp [isRaii])] at hr
      rw [countP_cons_of_neg (by simp [isCallback])]
      exact .inr ((ih hr).resolve_left fun ⟨l, hl⟩ => hre l hl)
    | raii => exact fun _ => .inl ⟨_, rfl⟩
    | callback => exact fun _ => .inr (countP_pos_iff.mpr ⟨_, mem_cons_self, rfl⟩)
  cases h with
  | waiting h => exact hw h hr
  | @brief x _ hx h hre =>
    have hn : x.isRaii = false := by cases x <;> first | rfl | cases hx
    rw [countP_cons_of_neg (by simp [hn])] at hr
    have := (hw h hr).resolve_left fun ⟨l, hl⟩ => hre l hl
    exact .inr (this.trans_le ((sublist_cons_self _ _).countP_le))

end Stacks

theorem Inv.init : Inv ({} : State Thread Callback) where
  proper _ := .waiting .nil
  owner := ⟨none, rfl, fun _ => rfl⟩
  order := rfl
  scheduled _ h := absurd rfl h

section Steps
variable {s s' : State Thread Callback} {t : Thread} {stack : List (Frame Callback)}

theorem forall_setStack {P : List (Frame Callback) → Prop} (h : ∀ u, P (s.stack u)) (ht : P stack)
    (u : Thread) : P ((s.setStack t stack).stack u) := by
  rcases eq_or_ne u t with rfl | hn
  · simpa [State.setStack] using ht
  · simpa [State.setStack, Function.update_of_ne hn] using h u

theorem Inv.proper_of_move (h : Inv s) (hm : Move s t s') (u : Thread) : Proper (s'.stack u) := by
  have ht := h.proper t
  cases hm with
  | add f hc =>
    exact forall_setStack h.proper
      (.brief rfl (ht.waiting_of_canCall hc) (ne_raii_of_canCall hc)) u
  | empty hc =>
    have hw := Waiting.emptyQueue (ht.waiting_of_canCall hc) (ne_raii_of_canCall hc)
    exact forall_setStack h.proper (.brief rfl hw (by simp)) u
  | take => exact forall_setStack h.proper (.brief rfl .nil (by simp)) u
  | other => exact h.proper u
  | leave hs | finish hs | emptied hs | schedule hs =>
    rw [hs] at ht
    exact forall_setStack h.proper (.waiting ht.tail) u
  | check hs | reset hs =>
    rw [hs] at ht
    exact forall_setStack h.proper (.brief rfl ht.tail (ht.tail_ne_raii rfl)) u
  | start hs =>
    rw [hs] at ht
    exact forall_setStack h.proper (.waiting (.callback (.raii ht.tail (ht.tail_ne_raii rfl)))) u
  | throw => exact forall_setStack h.proper (.waiting (.raii .nil (by simp))) u
  | again hs =>
    rw [hs] at ht
    have hw := Waiting.emptyQueue ht.tail (ht.tail_ne_raii rfl)
    exact forall_setStack h.proper (.brief rfl hw (by simp)) u

theorem countP_raii_cons (x : Frame Callback) (l : List (Frame Callback)) :
    (x :: l).countP isRaii = l.countP isRaii + x.isRaii.toNat := by
  rw [countP_cons]
  cases x.isRaii <;> rfl

theorem countP_raii_setStack (u : Thread) : ((s.setStack t stack).stack u).countP isRaii =
      if u = t then stack.countP isRaii else (s.stack u).countP isRaii := by
  rcases eq_or_ne u t with rfl | hn
  · simp [State.setStack]
  · simp [State.setStack, hn]

theorem Inv.owner_of_move (h : Inv s) (hm : Move s t s') :
    ∃ owner : Option Thread, s'.areCallbacksRunning = owner.isSome ∧
      ∀ u, (s'.stack u).countP isRaii = if owner = some u then 1 else 0 := by
  obtain ⟨owner, hr, hc⟩ := h.owner
  -- a move that keeps the number of destructors of the thread keeps the owner
  have hk : ∀ stack : List (Frame Callback), stack.countP isRaii = (s.stack t).countP isRaii →
      ∀ u, ((s.setStack t stack).stack u).countP isRaii =
        if owner = some u then 1 else 0 := by
    intro stack hsa u
    rw [countP_raii_setStack, hsa, ← hc u]
    split_ifs with hu
    · rw [hu]
    · rfl
  have ht := hc t
  cases hm with
  | add | empty => exact ⟨owner, hr, hk _ rfl⟩
  | take hs => exact ⟨owner, hr, hk _ (by rw [hs]; rfl)⟩
  | other => exact ⟨owner, hr, hc⟩
  | leave hs hx =>
    refine ⟨owner, hr, hk _ ?_⟩
    rcases hx with rfl | rfl <;> rw [hs] <;> rfl
  | check hs | schedule hs | finish hs | emptied hs | again hs =>
    exact ⟨owner, hr, hk _ (by rw [hs]; rfl)⟩
  | start hs hi =>
    rw [hi] at hr
    obtain rfl : owner = none := by simpa using hr.symm
    refine ⟨some t, rfl, fun u => ?_⟩
    rw [hs, countP_raii_cons] at ht
    rw [countP_raii_setStack, countP_raii_cons, countP_raii_cons, hc u]
    simp only [isRaii, reduceCtorEq, if_false, toNat_true, toNat_false, Option.some.injEq] at ht ⊢
    split_ifs with hu hut hut
    · omega
    · exact absurd hu.symm hut
    · exact absurd hut.symm hu
    · rfl
  | throw hs =>
    refine ⟨owner, hr, hk _ ?_⟩
    rw [hs, countP_raii_cons, countP_raii_cons] at ht ⊢
    rw [countP_raii_cons]
    simp only [isRaii, toNat_true, toNat_false, countP_nil] at ht ⊢
    split_ifs at ht
    omega
  | reset hs =>
    rw [hs, countP_raii_cons] at ht
    simp only [isRaii, toNat_true] at ht
    have ho : owner = some t := by
      by_contra hne
      rw [if_neg hne] at ht
      omega
    rw [if_pos ho] at ht
    refine ⟨none, rfl, fun u => ?_⟩
    rw [countP_raii_setStack, countP_raii_cons, hc u, ho]
    simp only [isRaii, toNat_false, reduceCtorEq, if_false, Option.some.injEq]
    split_ifs with hu hut
    · omega
    · exact absurd hut.symm hu
    · rfl

theorem Inv.order_of_move (h : Inv s) (hm : Move s t s') :
    s'.added = s'.started ++ s'.callbacksPending := by
  have ho := h.order
  cases hm with
  | add f =>
    simp only [State.setStack, ho, append_assoc]
  | start _ _ hp =>
    simp only [State.setStack, ho, hp, append_assoc, singleton_append]
  | _ => exact ho

theorem aboutToProcess_setStack {x : Frame Callback} {rest : List (Frame Callback)}
    (hx : x.brief) : AboutToProcess (s.setStack t (x :: rest)) :=
  ⟨t, x, rest, by simp [State.setStack], hx⟩

theorem Inv.scheduled_of_move (h : Inv s) (hm : Move s t s')
    (hi : s'.areCallbacksRunning = false) (hp : s'.callbacksPending ≠ []) :
    .processQueue ∈ s'.taskQueue ∨ AboutToProcess s' := by
  have hb : ∀ {x rest}, s.stack t = x :: rest → x.brief = false →
      ∀ stack, .processQueue ∈ s.taskQueue ∨ AboutToProcess s →
        .processQueue ∈ s.taskQueue ∨ AboutToProcess (s.setStack t stack) := by
    intro x rest hs hx stack
    refine Or.imp_right ?_
    rintro ⟨u, y, l, hu, hy⟩
    have hne : u ≠ t := by
      rintro rfl
      rw [hs] at hu
      rw [(List.cons.inj hu).1, hy] at hx
      cases hx
    exact ⟨u, y, l, by simpa [State.setStack, Function.update_of_ne hne] using hu, hy⟩
  cases hm with
  | add | empty | take | check | reset | again => exact .inr (aboutToProcess_setStack rfl)
  | other ht => exact (h.scheduled hi hp).imp_left ht.mpr
  | leave _ _ hn =>
    rcases hn with hr | he
    · exact absurd (hr.symm.trans hi) (by decide)
    · exact absurd he hp
  | schedule => exact .inl (mem_insertTask.mpr (.inl rfl))
  | start => cases hi
  | finish hs | throw hs => exact hb hs rfl _ (h.scheduled hi hp)
  | emptied _ he => exact absurd he hp

theorem Inv.of_move (h : Inv s) (hm : Move s t s') : Inv s' :=
  ⟨h.proper_of_move hm, h.owner_of_move hm, h.order_of_move hm, h.scheduled_of_move hm⟩

theorem Reachable.inv (h : Reachable s) : Inv s := by
  induction h with
  | init => exact .init
  | step _ hs ih => exact ih.of_move (.of_step hs)

theorem Inv.running_of_callback (h : Inv s) (hca : 0 < (s.stack t).countP isCallback) :
    ∃ owner, owner = t ∧ s.areCallbacksRunning ∧
      ∀ u, (s.stack u).countP isRaii = if owner = u then 1 else 0 := by
  obtain ⟨owner, hr, hc⟩ := h.owner
  have hl := (h.proper t).countP_callback_le
  have ht := hc t
  obtain rfl : owner = some t := by
    by_contra hne
    rw [if_neg hne] at ht
    omega
  exact ⟨t, rfl, hr, by simpa using hc⟩

end Steps

end Palladium.Scheduler

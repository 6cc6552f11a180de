import CRuby.Sync.Queue
import Mathlib.Data.Fintype.Basic

/-!
# What `Queue` and `SizedQueue` guarantee, and the wakeup they lose

* **FIFO.** Each segment moves the elements of `que` as one event of a first-in first-out queue
  (`Fifo.Step`): a push that returned appends its object, a pop that returned an element took
  it from the head, `clear` empties the queue, and nothing else moves an element
  (`step_fifo`). Over a run (`run_fifo`) the general results of `Fifo` then say that the popped
  elements come in push order, none twice, and that without `clear` none is lost.
* **Bounds.** A `SizedQueue` appends only while its length is below `max`
  (`step_enq_lt_max`).
* **Close.** `QUEUE_CLOSED` is never cleared (`step_closed`). A close wakes every waiter; a pop
  that then wakes on an empty queue returns `nil` (`wakeFrom_pop_closed`), and a push that
  wakes, or a blocking push, raises `ClosedQueueError` (`wakeFrom_push_closed`,
  `push_closed`). A non-blocking push to a full closed `SizedQueue` raises `ThreadError` instead
  (`push_nonblock_full_closed`).
* **Lost wakeup.** `wakeup_one` takes the waiter out of `waitq` before it runs. A woken pop that
  then leaves by an exception runs only `queue_sleep_done`, which does not pass the wakeup on:
  the queue keeps an element while another pop sleeps with nobody to wake it
  (`raise_after_push_loses_wakeup`).
-/

namespace CRuby.Sync.Queue

variable {T V : Type}

/-! ## What the waiter lists and the threads do not touch -/

/-- The elements, the `QUEUE_CLOSED` flag and `max`. -/
def RbQueue.data (q : RbQueue T V) : List V × Bool × Option ℕ := (q.que, q.closed, q.max)

theorem RbQueue.data_eq_iff {q q' : RbQueue T V} :
    q'.data = q.data ↔ q'.que = q.que ∧ q'.closed = q.closed ∧ q'.max = q.max := by
  simp [RbQueue.data]

@[simp] theorem data_addWaiter (t : T) (site : Site V) (q : RbQueue T V) :
    (site.addWaiter t q).data = q.data := by
  cases site <;> rfl

/-- What a segment may do to the queue, given what it did to the elements (`e`): the elements move
by `e`, an element joins only below `max`, and `QUEUE_CLOSED` is never cleared. -/
structure StepOk (q q' : RbQueue T V) (e : Fifo.Ev V) : Prop where
  fifo : Fifo.Step q.que e q'.que
  room : ∀ x m, e = .enq x → q.max = some m → q.que.length < m
  closed : q.closed → q'.closed

namespace StepOk

variable {q q1 q' : RbQueue T V} {e : Fifo.Ev V}

theorem skip_of_data (h : q'.data = q.data) : StepOk q q' .skip := by
  obtain ⟨hque, hc, -⟩ := RbQueue.data_eq_iff.mp h
  exact ⟨hque ▸ .skip _, nofun, fun h' => hc ▸ h'⟩

theorem of_data (h1 : q1.data = q.data) (h : StepOk q1 q' e) : StepOk q q' e := by
  obtain ⟨hque, hc, hm⟩ := RbQueue.data_eq_iff.mp h1
  exact ⟨hque ▸ h.fifo, fun x m he hm' => hque ▸ h.room x m he (hm ▸ hm'),
    fun h' => h.closed (hc ▸ h')⟩

theorem of_data_right (h : StepOk q q1 e) (h2 : q'.data = q1.data) : StepOk q q' e := by
  obtain ⟨hque, hc, -⟩ := RbQueue.data_eq_iff.mp h2
  exact ⟨hque ▸ h.fifo, h.room, fun h' => hc ▸ h.closed h'⟩

end StepOk

variable [DecidableEq T]

section Data

variable (s : State T V) (t : T)

@[simp] theorem setThread_q (x : Th V) : (s.setThread t x).q = s.q := rfl

@[simp] theorem data_sleepDone (site : Site V) (q : RbQueue T V) :
    (site.sleepDone t q).data = q.data := by
  cases site <;> rfl

@[simp] theorem data_wakeupWaitq : s.wakeupWaitq.q.data = s.q.data := rfl

@[simp] theorem data_wakeupPushq : s.wakeupPushq.1.q.data = s.q.data := rfl

theorem checkInts_q : (checkInts s t).1.q = s.q := by
  unfold checkInts
  dsimp only
  split <;> rfl

theorem checkInts_fst_q {s' : State T V} {i : Option Interrupt} (h : checkInts s t = (s', i)) :
    s'.q = s.q := by
  rw [← checkInts_q s t, h]

theorem raiseIn_q (done : RbQueue T V → RbQueue T V) (i : Interrupt) :
    (raiseIn s t done i).1.q = done s.q := by
  cases i <;> rfl

theorem raiseIn_outcome (done : RbQueue T V → RbQueue T V) (i : Interrupt) :
    (raiseIn s t done i).2 = .raised ∨ (raiseIn s t done i).2 = .killed := by
  cases i
  · exact .inl rfl
  · exact .inr rfl

/-- **A sleep moves no element**: it ends in `native_sleep` or in an exception. -/
theorem sleepEnter_spec (site : Site V) :
    (sleepEnter s t site).1.q.data = s.q.data ∧
      ((sleepEnter s t site).2 = .blocked ∨ (sleepEnter s t site).2 = .raised ∨
        (sleepEnter s t site).2 = .killed) := by
  unfold sleepEnter
  dsimp only
  split
  · rename_i s' i h
    have hq := checkInts_fst_q _ t h
    refine ⟨?_, .inr (raiseIn_outcome s' t _ i)⟩
    rw [raiseIn_q, data_sleepDone, hq]
    simp
  · rename_i s' h
    have hq := checkInts_fst_q _ t h
    refine ⟨?_, .inl rfl⟩
    simp [hq]

theorem runningCheckInts_spec :
    (runningCheckInts s t).1.q = s.q ∧
      ((runningCheckInts s t).2 = .returned ∨ (runningCheckInts s t).2 = .raised ∨
        (runningCheckInts s t).2 = .killed) := by
  unfold runningCheckInts
  split
  · rename_i s' i h
    exact ⟨by rw [raiseIn_q, checkInts_fst_q _ t h]; rfl, .inr (raiseIn_outcome s' t _ i)⟩
  · rename_i s' h
    exact ⟨checkInts_fst_q _ t h, .inl rfl⟩

@[simp] theorem popReturn_snd (r : State T V × Outcome V) : (popReturn r).2 = r.2 := by
  unfold popReturn
  split
  · split <;> rfl
  · rfl

@[simp] theorem data_popReturn (r : State T V × Outcome V) :
    (popReturn r).1.q.data = r.1.q.data := by
  unfold popReturn
  split
  · split
    · exact data_wakeupPushq _
    · rfl
  · rfl

theorem data_wakeupPushqN (n : ℕ) : (wakeupPushqN n s).q.data = s.q.data := by
  induction n generalizing s with
  | zero => rfl
  | succ n ih =>
    unfold wakeupPushqN
    split
    · rw [ih]; rfl
    · rfl

end Data

/-! ## FIFO, room and the flag, segment by segment -/

/-- What a pop's outcome says it did to the queue. -/
def popEv : Outcome V → Fifo.Ev V
  | .value (some x) => .deq x
  | _ => .skip

/-- What a push of `obj` did to the queue: the object joined the tail if the push returned. -/
def pushEv (obj : V) : Outcome V → Fifo.Ev V
  | .returned => .enq obj
  | _ => .skip

/-- What the loop at `site` did to the queue. -/
def Site.ev : Site V → Outcome V → Fifo.Ev V
  | .pop => popEv
  | .push obj => pushEv obj

/-- What a segment did to the queue, read off its action, its outcome, and for a wake the loop the
thread slept in. -/
def event (s : State T V) (t : T) : Action T V → Outcome V → Fifo.Ev V
  | .push obj _, o => pushEv obj o
  | .pop _, o => popEv o
  | .clear, _ => .clear
  | .wake, o =>
    match (s.threads t).pc with
    | .wait site _ => site.ev o
    | .running => .skip
  | _, _ => .skip

/-- The events of a run, segment by segment. -/
def runEvents (s : State T V) : List (T × Action T V) → List (Fifo.Ev V)
  | [] => []
  | (t, a) :: rest =>
    match step s t a with
    | some (s', o) => event s t a o :: runEvents s' rest
    | none => []

@[simp] theorem Site.ev_blocked (site : Site V) : site.ev .blocked = .skip := by cases site <;> rfl

@[simp] theorem Site.ev_raised (site : Site V) : site.ev .raised = .skip := by cases site <;> rfl

@[simp] theorem Site.ev_killed (site : Site V) : site.ev .killed = .skip := by cases site <;> rfl

section Segments

variable (s : State T V) (t : T)

/-- A sleep is a `skip` of the loop it sleeps in. -/
theorem sleepEnter_ok (site site' : Site V) :
    StepOk s.q (sleepEnter s t site).1.q (site'.ev (sleepEnter s t site).2) := by
  obtain ⟨hd, ho⟩ := sleepEnter_spec s t site
  rcases ho with ho | ho | ho <;> rw [ho] <;> simpa using StepOk.skip_of_data hd

/-- **`queue_do_pop` takes the head, or moves nothing.** -/
theorem queueDoPop_ok (b : Bool) :
    StepOk s.q (queueDoPop s t b).1.q (popEv (queueDoPop s t b).2) := by
  unfold queueDoPop
  split
  · rename_i x rest h
    refine ⟨?_, nofun, id⟩
    rw [h]
    exact .deq x rest
  · -- an empty queue: an error, `nil`, or a sleep
    split_ifs
    · exact StepOk.skip_of_data rfl
    · exact StepOk.skip_of_data rfl
    · exact sleepEnter_ok s t .pop .pop

theorem rbQueuePop_ok (b : Bool) :
    StepOk s.q (rbQueuePop s t b).1.q (popEv (rbQueuePop s t b).2) := by
  rw [rbQueuePop, popReturn_snd]
  exact (queueDoPop_ok s t b).of_data_right (data_popReturn _)

/-- **`queue_do_push` appends, or raises on a closed queue**; its caller has found room. -/
theorem queueDoPush_ok (obj : V) (hroom : ∀ m, s.q.max = some m → s.q.que.length < m) :
    StepOk s.q (queueDoPush s obj).1.q (pushEv obj (queueDoPush s obj).2) := by
  unfold queueDoPush
  split_ifs
  · exact StepOk.skip_of_data rfl
  · exact ⟨.enq _ obj, fun _ m _ hm => hroom m hm, id⟩

/-- **A push appends only below `max`**: `rb_szqueue_push` calls `queue_do_push` only when the
loop test `queue_length >= sq->max` has failed. -/
theorem push_ok (obj : V) (nonBlock : Bool) :
    StepOk s.q (push s t obj nonBlock).1.q (pushEv obj (push s t obj nonBlock).2) := by
  unfold push
  split
  · rename_i hm
    split_ifs
    · exact StepOk.skip_of_data rfl
    · exact queueDoPush_ok s obj (by simp [hm])
  · rename_i m hm
    unfold rbSzqueuePush
    split_ifs with hfull
    · exact StepOk.skip_of_data rfl
    · exact StepOk.skip_of_data rfl
    · exact sleepEnter_ok s t (.push obj) (.push obj)
    · exact StepOk.skip_of_data rfl
    · refine queueDoPush_ok s obj fun m' hm' => ?_
      rw [hm] at hm'
      cases hm'
      omega

/-- **A wake runs the rest of the loop it slept in**, after the cleanup, which moves nothing. -/
theorem wakeFrom_ok (site : Site V) (prev : ThreadStatus) :
    StepOk s.q (wakeFrom s t site prev).1.q (site.ev (wakeFrom s t site prev).2) := by
  unfold wakeFrom
  dsimp only
  split
  · rename_i s' i h
    have hd : (raiseIn s' t (site.sleepDone t) i).1.q.data = s.q.data := by
      rw [raiseIn_q, data_sleepDone, checkInts_fst_q _ t h]
    rcases raiseIn_outcome s' t (site.sleepDone t) i with ho | ho <;> rw [ho] <;>
      simpa using StepOk.skip_of_data hd
  · rename_i s' h
    have hd : (site.sleepDone t s'.q).data = s.q.data := by
      rw [data_sleepDone, checkInts_fst_q _ t h]
    cases site with
    | pop => exact StepOk.of_data hd (rbQueuePop_ok ⟨_, _⟩ t true)
    | push obj => exact StepOk.of_data hd (push_ok ⟨_, _⟩ t obj false)

theorem data_threadRaise (u : T) : (threadRaise s t u).1.q.data = s.q.data := by
  unfold threadRaise
  dsimp only
  split_ifs
  · rfl
  · rw [(runningCheckInts_spec _ t).1]
    rfl
  · rfl

theorem data_rbThreadKill (u : T) : (rbThreadKill s t u).1.q.data = s.q.data := by
  unfold rbThreadKill
  split_ifs
  · rfl
  · rw [raiseIn_q]
    rfl
  · rfl

theorem data_rbThreadWakeup (u : T) : (rbThreadWakeup s u).1.q.data = s.q.data := by
  unfold rbThreadWakeup
  split_ifs <;> rfl

theorem rbSzqueueMaxSet_q (m : ℕ) (vmax : ℤ) :
    (rbSzqueueMaxSet m s vmax).1.q.que = s.q.que ∧ (rbSzqueueMaxSet m s vmax).1.q.closed = s.q.closed := by
  unfold rbSzqueueMaxSet
  by_cases hv : vmax ≤ 0
  · rw [if_pos hv]
    exact ⟨rfl, rfl⟩
  · -- `max=` writes `max` and wakes pushes, which touches neither the elements nor the flag
    rw [if_neg hv]
    dsimp only
    exact ⟨(RbQueue.data_eq_iff.mp (data_wakeupPushqN _ _)).1,
      (RbQueue.data_eq_iff.mp (data_wakeupPushqN _ _)).2.1⟩

/-- The first close sets the flag; neither close moves an element. -/
theorem close_q :
    (if s.q.max.isSome then rbSzqueueClose s else rbQueueClose s).q.que = s.q.que ∧
      (if s.q.max.isSome then rbSzqueueClose s else rbQueueClose s).q.closed = true := by
  unfold rbSzqueueClose rbQueueClose
  split_ifs with h1 h2 h2 <;> exact ⟨rfl, by first | exact h2 | rfl⟩

end Segments

/-! ## Segments and runs -/

section Step

variable {s s' : State T V} {t : T} {a : Action T V} {o : Outcome V}

/-- **What a segment can be**: a sleeping thread wakes in its loop, or a running thread that has
not ended makes a call. -/
theorem step_cases (h : step s t a = some (s', o)) :
    (∃ site prev, (s.threads t).pc = .wait site prev ∧ a = .wake ∧
      wakeFrom s t site prev = (s', o)) ∨
    ((s.threads t).pc = .running ∧ (s.threads t).status ≠ .killed ∧ callStep s t a = some (s', o)) := by
  unfold step at h
  split at h
  · next site prev hpc =>
    exact .inl ⟨site, prev, hpc, rfl, Option.some.inj h⟩
  · next hpc =>
    split_ifs at h with hk
    exact .inr ⟨hpc, hk, h⟩
  · cases h

/-- **A call moves the queue by its event.** -/
theorem callStep_ok {r : State T V × Outcome V} (h : callStep s t a = some r) :
    StepOk s.q r.1.q (event s t a r.2) := by
  cases a with
  | push obj nonBlock => cases h; exact push_ok s t obj nonBlock
  | pop nonBlock => cases h; exact rbQueuePop_ok s t _
  | close =>
    cases h
    obtain ⟨hque, hc⟩ := close_q s
    exact ⟨hque ▸ .skip _, nofun, fun _ => hc⟩
  | clear =>
    cases h
    refine ⟨?_, nofun, ?_⟩ <;> split
    · exact .clear _
    · exact .clear _
    · exact id
    · exact id
  | setMax vmax =>
    obtain ⟨m, -, rfl⟩ := Option.map_eq_some_iff.mp h
    obtain ⟨hque, hc⟩ := rbSzqueueMaxSet_q s m vmax
    exact ⟨hque ▸ .skip _, nofun, fun h' => hc ▸ h'⟩
  | wake => cases h
  | checkInts =>
    cases h
    exact StepOk.skip_of_data (congrArg RbQueue.data (runningCheckInts_spec s t).1)
  | raise u => cases h; exact StepOk.skip_of_data (data_threadRaise s t u)
  | kill u => cases h; exact StepOk.skip_of_data (data_rbThreadKill s t u)
  | wakeup u => cases h; exact StepOk.skip_of_data (data_rbThreadWakeup s u)

/-- **Every segment moves the queue by its event**: a first-in first-out step on the elements, an
element joins only below `max`, and `QUEUE_CLOSED` stays set. -/
theorem step_ok (h : step s t a = some (s', o)) : StepOk s.q s'.q (event s t a o) := by
  rcases step_cases h with ⟨site, prev, hpc, rfl, hw⟩ | ⟨-, -, hc⟩
  · have := wakeFrom_ok s t site prev
    rw [hw] at this
    simpa [event, hpc] using this
  · exact callStep_ok hc

/-- A `SizedQueue` appends only while its length is below `max`. -/
theorem step_enq_lt_max {x : V} {m : ℕ} (h : step s t a = some (s', o))
    (he : event s t a o = .enq x) (hm : s.q.max = some m) : s.q.que.length < m :=
  (step_ok h).room x m he hm

/-- A closed queue stays closed. -/
theorem step_closed (h : step s t a = some (s', o)) (hc : s.q.closed) : s'.q.closed :=
  (step_ok h).closed hc

end Step

section Run

variable {s s' : State T V} {t : T} {a : Action T V} {tr : List (T × Action T V)}
  {os : List (Outcome V)}

theorem run_cons_eq_some :
    run s ((t, a) :: tr) = some (s', os) ↔
      ∃ s1 o os', step s t a = some (s1, o) ∧ run s1 tr = some (s', os') ∧ os = o :: os' := by
  simp only [run, Option.bind_eq_bind, Option.bind_eq_some_iff, Option.pure_def,
    Option.some.injEq, Prod.mk.injEq]
  constructor
  · rintro ⟨⟨s1, o⟩, h1, ⟨s2, os2⟩, h2, rfl, rfl⟩
    exact ⟨s1, o, os2, h1, h2, rfl⟩
  · rintro ⟨s1, o, os', h1, h2, rfl⟩
    exact ⟨(s1, o), h1, (s', os'), h2, rfl, rfl⟩

/-- A run from a reachable state ends in a reachable state. -/
theorem Reachable.run (hr : Reachable s) (h : run s tr = some (s', os)) : Reachable s' := by
  induction tr generalizing s os with
  | nil => cases h; exact hr
  | cons ta tr ih =>
    obtain ⟨t, a⟩ := ta
    obtain ⟨s1, o, os', h1, h2, rfl⟩ := run_cons_eq_some.mp h
    exact ih (hr.step h1) h2

/-- **A run refines a first-in first-out queue**: its events take the elements from where they
were to where they end. -/
theorem run_fifo (h : run s tr = some (s', os)) : Fifo.Steps s.q.que (runEvents s tr) s'.q.que := by
  induction tr generalizing s os with
  | nil => cases h; exact .nil _
  | cons ta tr ih =>
    obtain ⟨t, a⟩ := ta
    obtain ⟨s1, o, os', h1, h2, rfl⟩ := run_cons_eq_some.mp h
    rw [runEvents, h1]
    exact .cons (step_ok h1).fifo (ih h2)

/-- **Pops hand out pushed elements in push order**: in every run, the popped elements, then what
is left, are a sublist of what the queue held and what was pushed; without `clear` they are that
list exactly, so each element was popped once, in order, or is still there. -/
theorem run_pops_fifo (h : run s tr = some (s', os)) :
    List.Sublist ((runEvents s tr).filterMap Fifo.Ev.deqd ++ s'.q.que)
        (s.q.que ++ (runEvents s tr).filterMap Fifo.Ev.enqd) ∧
      (Fifo.Ev.clear ∉ runEvents s tr →
        (runEvents s tr).filterMap Fifo.Ev.deqd ++ s'.q.que =
          s.q.que ++ (runEvents s tr).filterMap Fifo.Ev.enqd) :=
  ⟨(run_fifo h).deqs_sublist, (run_fifo h).deqs_append⟩

end Run

/-! ## Close -/

section Close

variable (s : State T V) (t : T)

theorem wake_status (ths : T → Th V) (v u : T) :
    (wake ths v u).status = if u = v then .runnable else (ths u).status := by
  unfold wake
  split_ifs with h
  · subst h; simp
  · simp [h]

/-- Waking never kills. -/
theorem wakeupAll_ne_killed {ths : T → Th V} {u : T} (l : List T)
    (h : (ths u).status ≠ .killed) : (wakeupAll ths l u).status ≠ .killed := by
  induction l generalizing ths with
  | nil => exact h
  | cons v l ih =>
    apply ih
    split_ifs
    · rw [wake_status]; split_ifs <;> simp [h]
    · exact h

theorem wakeupAll_runnable {ths : T → Th V} {u : T} (l : List T) (h : (ths u).status = .runnable) :
    (wakeupAll ths l u).status = .runnable := by
  induction l generalizing ths with
  | nil => exact h
  | cons v l ih =>
    apply ih
    split_ifs
    · rw [wake_status]; split_ifs <;> simp [h]
    · exact h

/-- **`wakeup_all` wakes every live waiter.** -/
theorem wakeupAll_status {ths : T → Th V} {u : T} {l : List T} (hu : u ∈ l)
    (hk : (ths u).status ≠ .killed) : (wakeupAll ths l u).status = .runnable := by
  induction l generalizing ths with
  | nil => cases hu
  | cons v l ih =>
    rcases List.mem_cons.mp hu with rfl | hu
    · -- the first waiter is `u`: woken here, and later wakes keep it runnable
      rw [wakeupAll]
      apply wakeupAll_runnable
      rw [if_pos hk, wake_status, if_pos rfl]
    · apply ih hu
      split_ifs
      · rw [wake_status]; split_ifs <;> simp [hk]
      · exact hk

/-- **The first close wakes every waiting pop**, and for a `SizedQueue` every waiting push. -/
theorem close_wakes_waiters (hc : s.q.closed = false) {u : T} (hk : (s.threads u).status ≠ .killed)
    (hu : u ∈ s.q.waitq ∨ (s.q.max.isSome ∧ u ∈ s.q.pushq)) :
    ((if s.q.max.isSome then rbSzqueueClose s else rbQueueClose s).threads u).status = .runnable := by
  unfold rbSzqueueClose rbQueueClose
  simp only [hc, Bool.false_eq_true, if_false]
  split_ifs with hm
  · rcases hu with hu | ⟨-, hu⟩
    · exact wakeupAll_runnable _ (wakeupAll_status hu hk)
    · exact wakeupAll_status hu (wakeupAll_ne_killed _ hk)
  · rcases hu with hu | ⟨hs, -⟩
    · exact wakeupAll_status hu hk
    · exact absurd hs hm

theorem checkInts_of_pending_nil (hp : (s.threads t).pending = []) :
    checkInts s t = (s.setThread t { s.threads t with interrupted := false }, none) := by
  unfold checkInts
  dsimp only
  rw [hp]

/-- A blocking pop on a closed empty queue returns `nil`. -/
theorem rbQueuePop_closed_empty (hc : s.q.closed) (he : s.q.que = []) :
    (rbQueuePop s t true).2 = .value none := by
  rw [rbQueuePop, popReturn_snd, queueDoPop, he]
  simp [hc]

/-- **After close, a blocking push raises `ClosedQueueError`.** -/
theorem push_closed (hc : s.q.closed) (obj : V) : (push s t obj false).2 = .closedQueueError closedMessage := by
  unfold push
  split
  · simp [queueDoPush, hc]
  · unfold rbSzqueuePush
    split_ifs <;> simp_all

/-- A non-blocking push to a full `SizedQueue` raises `ThreadError` before it looks at the flag, so
on a closed queue it raises `ThreadError`, not `ClosedQueueError`. -/
theorem push_nonblock_full_closed {m : ℕ} (hm : s.q.max = some m) (hfull : m ≤ s.q.que.length)
    (obj : V) : (push s t obj true).2 = .threadError "queue full" := by
  unfold push
  rw [hm]
  simp [rbSzqueuePush, hfull]

/-- **A pop that wakes on a closed empty queue returns `nil`**, unless an exception is queued for
its thread. -/
theorem wakeFrom_pop_closed (hc : s.q.closed) (he : s.q.que = [])
    (hp : (s.threads t).pending = []) (prev : ThreadStatus) :
    (wakeFrom s t .pop prev).2 = .value none := by
  rw [wakeFrom, checkInts_of_pending_nil s t hp]
  exact rbQueuePop_closed_empty _ t (by exact hc) (by exact he)

/-- **A push that wakes on a closed queue raises `ClosedQueueError`**, unless an exception is
queued for its thread. -/
theorem wakeFrom_push_closed (hc : s.q.closed) (hp : (s.threads t).pending = []) (obj : V)
    (prev : ThreadStatus) : (wakeFrom s t (.push obj) prev).2 = .closedQueueError closedMessage := by
  rw [wakeFrom, checkInts_of_pending_nil s t hp]
  exact push_closed _ t (by exact hc) obj

end Close

/-! ## The lost wakeup -/

/-- A sleeping thread that will look at the queue again: it is `THREAD_RUNNABLE`, or `wakeup_one`
has taken it out of `waitq`. -/
def Woken (s : State T V) (t : T) : Prop := (s.threads t).status = .runnable ∨ t ∉ s.q.waitq

/-- **No lost wakeup of a pop**: whenever the queue has an element and a thread sleeps in pop,
some sleeping pop has been woken. -/
def NoLostPopWakeup (s : State T V) : Prop :=
  s.q.que ≠ [] → (∃ t, (s.threads t).pc.isPopWait) → ∃ t, (s.threads t).pc.isPopWait ∧ Woken s t

instance [Fintype T] (s : State T V) : Decidable (NoLostPopWakeup s) :=
  inferInstanceAs (Decidable (_ → _ → ∃ _, _ ∧ (_ ∨ _)))

theorem exists_reachable_of_run {tr : List (T × Action T V)} {os : List (Outcome V)}
    {P : State T V → Prop} (h : ∃ s, run (init rbQueueInitialize) tr = some (s, os) ∧ P s) :
    ∃ s, run (init rbQueueInitialize) tr = some (s, os) ∧ Reachable s ∧ P s := by
  obtain ⟨s, hs, hp⟩ := h
  exact ⟨s, hs, Reachable.queue.run hs, hp⟩

/-- **A woken pop that leaves by an exception loses the wakeup.** Threads 0 and 1 sleep in `pop`
on an empty `Queue`; thread 2 pushes 7, and `wakeup_one` takes thread 0 out of `waitq`; thread 2
then raises on thread 0, which wakes, raises and leaves through `queue_sleep_done`. The queue
holds 7, and thread 1 still sleeps in `waitq`, neither runnable nor woken. -/
theorem raise_after_push_loses_wakeup :
    ∃ s : State (Fin 3) ℕ,
      run (init rbQueueInitialize) [(0, .pop false), (1, .pop false), (2, .push 7 false),
          (2, .raise 0), (0, .wake)] = some (s, [.blocked, .blocked, .returned, .returned, .raised]) ∧
        Reachable s ∧ s.q.que = [7] ∧ s.q.waitq = [1] ∧ (s.threads 1).pc = .wait .pop .runnable ∧
        (s.threads 1).status = .stoppedForever ∧ ¬ NoLostPopWakeup s := by
  apply exists_reachable_of_run
  exact ⟨_, rfl, rfl, rfl, rfl, rfl, by decide⟩

end CRuby.Sync.Queue

import Mathlib.Data.List.Infix

/-!
# First-in first-out queues

The abstract queue that a queue implementation refines: its elements, head first, and the events
that change them (`Ev`). `Step q e q'` says that the event `e` takes the queue `q` to `q'`, and
`Steps` chains events along a run. A dequeue fits only the head, so a run of `Steps` hands out
elements in the order they came in:

* with any events, the dequeued elements followed by what is left are a sublist of the first
  queue followed by the enqueued elements (`Steps.deqs_sublist`): nothing is dequeued twice or
  out of order, and `clear` only drops elements;
* without `clear`, they are that list exactly (`Steps.deqs_append`): every element that came in
  was dequeued, in order, or is still there.
-/

namespace Fifo

variable {α : Type*}

/-- What a step does to a queue. -/
inductive Ev (α : Type*) where
  /-- nothing -/
  | skip
  /-- `x` joins the tail -/
  | enq (x : α)
  /-- `x` leaves from the head -/
  | deq (x : α)
  /-- every element is removed -/
  | clear
  deriving DecidableEq, Repr

namespace Ev

/-- The element an event enqueues. -/
def enqd : Ev α → Option α
  | .enq x => some x
  | _ => none

/-- The element an event dequeues. -/
def deqd : Ev α → Option α
  | .deq x => some x
  | _ => none

end Ev

/-- The event `e` takes the queue `q` to `q'`. -/
inductive Step : List α → Ev α → List α → Prop
  | skip (q : List α) : Step q .skip q
  | enq (q : List α) (x : α) : Step q (.enq x) (q ++ [x])
  | deq (x : α) (q : List α) : Step (x :: q) (.deq x) q
  | clear (q : List α) : Step q .clear []

/-- The events `es`, in order, take `q` to `q'`. -/
inductive Steps : List α → List (Ev α) → List α → Prop
  | nil (q : List α) : Steps q [] q
  | cons {q q' q'' : List α} {e : Ev α} {es : List (Ev α)} :
      Step q e q' → Steps q' es q'' → Steps q (e :: es) q''

variable {q q' : List α} {e : Ev α} {es : List (Ev α)}

theorem Steps.append {q'' : List α} {es' : List (Ev α)} (h : Steps q es q')
    (h' : Steps q' es' q'') : Steps q (es ++ es') q'' := by
  induction h with
  | nil => exact h'
  | cons hs _ ih => exact .cons hs (ih h')

theorem Steps.single (h : Step q e q') : Steps q [e] q' := .cons h (.nil _)

/-- **Order is kept**: what was dequeued, then what is left, is a sublist of what was there and
what came in. -/
theorem Steps.deqs_sublist (h : Steps q es q') :
    List.Sublist (es.filterMap Ev.deqd ++ q') (q ++ es.filterMap Ev.enqd) := by
  induction h with
  | nil q => simp
  | cons hs _ ih =>
    cases hs with
    | skip => simpa [List.filterMap_cons, Ev.deqd, Ev.enqd] using ih
    | enq _ x => simpa [List.filterMap_cons, Ev.deqd, Ev.enqd] using ih
    | deq x _ => simpa [List.filterMap_cons, Ev.deqd, Ev.enqd] using ih
    | clear =>
      -- `clear` drops the queue: the rest is a sublist of its tail part
      simpa [List.filterMap_cons, Ev.deqd, Ev.enqd] using ih.trans (List.sublist_append_right _ _)

/-- **Nothing is lost without `clear`**: what was dequeued, then what is left, is what was there
and what came in. -/
theorem Steps.deqs_append (h : Steps q es q') (hc : Ev.clear ∉ es) :
    es.filterMap Ev.deqd ++ q' = q ++ es.filterMap Ev.enqd := by
  induction h with
  | nil q => simp
  | cons hs _ ih =>
    have ih := ih (fun h => hc (List.mem_cons_of_mem _ h))
    cases hs with
    | skip => simpa [List.filterMap_cons, Ev.deqd, Ev.enqd] using ih
    | enq _ x => simpa [List.filterMap_cons, Ev.deqd, Ev.enqd] using ih
    | deq x _ => simpa [List.filterMap_cons, Ev.deqd, Ev.enqd] using ih
    | clear => exact absurd List.mem_cons_self hc

/-- Without `clear`, the dequeued elements come first in what was there and what came in. -/
theorem Steps.deqs_prefix (h : Steps q es q') (hc : Ev.clear ∉ es) :
    List.IsPrefix (es.filterMap Ev.deqd) (q ++ es.filterMap Ev.enqd) :=
  ⟨q', h.deqs_append hc⟩

end Fifo

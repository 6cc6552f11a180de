import Mathlib.Logic.Function.Iterate
import Mathlib.Order.Basic

/-!
# Searching along an iterated sequence

The search loops of open addressing walk a state machine (`ind`, `perterb`, ...) and stop at
the first state where a look at the table decides. This file is independent of any table:

* `walk step look fuel s` runs such a loop for at most `fuel` steps. `none` means the fuel ran
  out or the look got stuck; `walk_eq_some` says exactly when it answers, and
  `walk_eq_none_of_next` that a loop whose every look says `next` answers for no fuel at all.
* `ReachedBefore seq blocks b`: the sequence meets `b` before any position where `blocks` holds.
  It is what a search that stops at a blocking position needs of a position for it to be found,
  and it survives any change that only removes blocking positions (`ReachedBefore.mono`).
-/

namespace Probing

universe u v

variable {σ : Type u} {α β : Type v}

/-! ## The loop -/

/-- What one look at the current state decides. -/
inductive Look (β : Type v) where
  /-- leave the loop with `r` -/
  | found (r : β)
  /-- step and look again -/
  | next
  /-- the look cannot be made (undefined behaviour in the source) -/
  | stuck
  deriving DecidableEq

/-- The loop `for (;;) { look; step; }`, run for at most `fuel` looks. -/
def walk (step : σ → σ) (look : σ → Look β) : ℕ → σ → Option β
  | 0, _ => none
  | n + 1, s =>
    match look s with
    | .found r => some r
    | .next => walk step look n (step s)
    | .stuck => none

variable {step : σ → σ} {look : σ → Look β}

@[simp] theorem walk_zero (s : σ) : walk step look 0 s = none := rfl

theorem walk_succ (n : ℕ) (s : σ) :
    walk step look (n + 1) s =
      match look s with
      | .found r => some r
      | .next => walk step look n (step s)
      | .stuck => none := rfl

/-- **The loop answers `r`** exactly when, within the fuel, the first look that is not
`next` finds `r`. -/
theorem walk_eq_some {n : ℕ} {s : σ} {r : β} :
    walk step look n s = some r ↔
      ∃ m < n, look (step^[m] s) = .found r ∧ ∀ j < m, look (step^[j] s) = .next := by
  induction n generalizing s with
  | zero => simp
  | succ n ih =>
    rw [walk_succ]
    rcases hl : look s with r' | - | -
    · -- the first look decides
      dsimp only
      constructor
      · intro h
        exact ⟨0, Nat.zero_lt_succ n, by rw [Function.iterate_zero_apply, hl, Option.some.inj h],
          fun j hj => absurd hj (Nat.not_lt_zero j)⟩
      · rintro ⟨m, -, hm, hbefore⟩
        cases m with
        | zero =>
          rw [Function.iterate_zero_apply, hl] at hm
          exact congrArg some (Look.found.inj hm)
        | succ m =>
          have h0 := hbefore 0 (Nat.zero_lt_succ m)
          rw [Function.iterate_zero_apply, hl] at h0
          cases h0
    · -- the first look steps on
      dsimp only
      rw [ih]
      constructor
      · rintro ⟨m, hm, hfound, hbefore⟩
        refine ⟨m + 1, by omega, by rw [Function.iterate_succ_apply]; exact hfound, ?_⟩
        intro j hj
        cases j with
        | zero => rwa [Function.iterate_zero_apply]
        | succ j =>
          rw [Function.iterate_succ_apply]
          exact hbefore j (by omega)
      · rintro ⟨m, hm, hfound, hbefore⟩
        cases m with
        | zero => rw [Function.iterate_zero_apply, hl] at hfound; cases hfound
        | succ m =>
          refine ⟨m, by omega, by rwa [Function.iterate_succ_apply] at hfound, ?_⟩
          intro j hj
          have := hbefore (j + 1) (by omega)
          rwa [Function.iterate_succ_apply] at this
    · -- the first look is stuck
      simp only [reduceCtorEq, false_iff, not_exists, not_and]
      intro m _ hfound hbefore
      cases m with
      | zero => rw [Function.iterate_zero_apply, hl] at hfound; cases hfound
      | succ m =>
        have h0 := hbefore 0 (Nat.zero_lt_succ m)
        rw [Function.iterate_zero_apply, hl] at h0
        cases h0

/-- A loop that always steps on never answers, whatever the fuel: the source loop runs
forever. -/
theorem walk_eq_none_of_next (hnext : ∀ j, look (step^[j] s) = .next) (n : ℕ) :
    walk step look n s = none := by
  rcases h : walk step look n s with - | r
  · rfl
  · obtain ⟨m, -, hfound, -⟩ := walk_eq_some.mp h
    rw [hnext m] at hfound
    cases hfound

/-- A loop that reaches a deciding look within the fuel answers with it. -/
theorem walk_of_found {n m : ℕ} {s : σ} {r : β} (hm : m < n)
    (hfound : look (step^[m] s) = .found r) (hbefore : ∀ j < m, look (step^[j] s) = .next) :
    walk step look n s = some r :=
  walk_eq_some.mpr ⟨m, hm, hfound, hbefore⟩

/-- **The loop answers** when a look within the fuel decides and no look gets stuck. By
induction on the index of the deciding look: the loop either leaves at the first look or steps
on, and the deciding look is one step nearer. -/
theorem walk_isSome_of_decides (hstuck : ∀ j, look (step^[j] s) ≠ .stuck) {m n : ℕ}
    (hm : m < n) (hdec : look (step^[m] s) ≠ .next) : (walk step look n s).isSome := by
  induction m generalizing s n with
  | zero =>
    obtain ⟨n, rfl⟩ : ∃ n', n = n' + 1 := ⟨n - 1, by omega⟩
    rw [walk_succ]
    have h0 := hstuck 0
    rw [Function.iterate_zero_apply] at hdec h0
    rcases hl : look s with r | - | -
    · rfl
    · exact absurd hl hdec
    · exact absurd hl h0
  | succ m ih =>
    obtain ⟨n, rfl⟩ : ∃ n', n = n' + 1 := ⟨n - 1, by omega⟩
    rw [walk_succ]
    rcases hl : look s with r | - | -
    · rfl
    · -- the loop steps on, and the deciding look is the `m`-th from the next state
      exact ih (fun j => by rw [← Function.iterate_succ_apply]; exact hstuck (j + 1)) (by omega)
        (by rw [← Function.iterate_succ_apply]; exact hdec)
    · exact absurd hl (by rw [← Function.iterate_zero_apply step s]; exact hstuck 0)

/-! ## Reaching a position before a blocking one -/

/-- The sequence `seq` meets `b` before any position where `blocks` holds. -/
def ReachedBefore (seq : ℕ → α) (blocks : α → Prop) (b : α) : Prop :=
  ∃ i, seq i = b ∧ ∀ j < i, ¬ blocks (seq j)

/-- Fewer blocking positions keep a position reached. -/
theorem ReachedBefore.mono {seq : ℕ → α} {blocks blocks' : α → Prop} {b : α}
    (h : ReachedBefore seq blocks b) (hb : ∀ a, blocks' a → blocks a) :
    ReachedBefore seq blocks' b := by
  obtain ⟨i, hi, hbefore⟩ := h
  exact ⟨i, hi, fun j hj hblock => hbefore j hj (hb _ hblock)⟩

/-- A position where the sequence is stopped by a block at index `m`, but reached before any
block, is met before `m`. -/
theorem ReachedBefore.lt_of_blocks {seq : ℕ → α} {blocks : α → Prop} {b : α}
    (h : ReachedBefore seq blocks b) {m : ℕ} (hm : blocks (seq m)) :
    ∃ i ≤ m, seq i = b ∧ ∀ j < i, ¬ blocks (seq j) := by
  obtain ⟨i, hi, hbefore⟩ := h
  refine ⟨i, ?_, hi, hbefore⟩
  by_contra hlt
  exact hbefore m (by omega) hm

end Probing

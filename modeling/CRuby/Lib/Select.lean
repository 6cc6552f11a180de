import Mathlib.Data.List.GetD
import Mathlib.Data.List.Nodup
import Mathlib.Data.List.Perm.Basic
import Mathlib.Data.Set.Function

/-!
# Drawing without replacement

A sampler draws `n` distinct elements of a pool with `n` random numbers. Each number lies below
the size of the pool still left and picks the element at its index. The pool for the next
draws is the pool without that element, in an order of the sampler's choosing (`next`).
`selectLoop next d pool rs` is the tuple drawn.

When the pool has no repeats and `next` keeps exactly the elements not drawn (`LawfulNext`),
the numbers that fit (`draws`) are mapped one to one onto the tuples of distinct elements of
the pool (`samples`): `selectLoop_bijOn`. So uniform numbers give a uniform ordered sample,
whatever order `next` keeps. The skip-walk over a sorted list of taken indices and the swaps
of a partial Fisher–Yates shuffle are two such orders.
-/

namespace Select

variable {β : Type*}

/-- Drawing with the numbers `rs`: each takes the element at its index (`d` past the end). -/
def selectLoop (next : List β → ℕ → List β) (d : β) : List β → List ℕ → List β
  | _, [] => []
  | pool, r :: rs => pool.getD r d :: selectLoop next d (next pool r) rs

/-- The numbers fit a pool of `m`: the first is below `m`, the next below `m - 1`, and so on. -/
def Fits : ℕ → List ℕ → Prop
  | _, [] => True
  | m, r :: rs => r < m ∧ Fits (m - 1) rs

/-- The draws: `n` numbers that fit a pool of `m`. -/
def draws (m n : ℕ) : Set (List ℕ) := {rs | rs.length = n ∧ Fits m rs}

/-- The samples: `n` distinct elements of `pool`. -/
def samples (pool : List β) (n : ℕ) : Set (List β) :=
  {out | out.length = n ∧ out.Nodup ∧ ∀ x ∈ out, x ∈ pool}

/-- `next` leaves the pool without the element drawn, in some order. -/
def LawfulNext (next : List β → ℕ → List β) : Prop :=
  ∀ pool r, r < pool.length → (next pool r).Perm (pool.eraseIdx r)

@[simp]
theorem fits_nil (m : ℕ) : Fits m [] := trivial

@[simp]
theorem fits_cons {m r : ℕ} {rs : List ℕ} : Fits m (r :: rs) ↔ r < m ∧ Fits (m - 1) rs := Iff.rfl

variable [DecidableEq β] {pool : List β} {r : ℕ}

/-- In a pool without repeats, what is left after the draw at `r` is all but `pool[r]`. -/
theorem mem_eraseIdx_iff (hp : pool.Nodup) (hr : r < pool.length) {x : β} :
    x ∈ pool.eraseIdx r ↔ x ≠ pool[r] ∧ x ∈ pool := by
  rw [← hp.erase_getElem r hr, hp.mem_erase_iff]

variable {next : List β → ℕ → List β} {d : β}

section Lawful

variable (hnext : LawfulNext next)
include hnext

/-- The pool left after a draw has no repeats, one element less, and all but the one drawn. -/
theorem next_spec (hp : pool.Nodup) (hr : r < pool.length) :
    (next pool r).Nodup ∧ (next pool r).length = pool.length - 1 ∧
      ∀ x, x ∈ next pool r ↔ x ≠ pool[r] ∧ x ∈ pool := by
  have hperm := hnext pool r hr
  refine ⟨hperm.nodup_iff.mpr (hp.eraseIdx r), by rw [hperm.length_eq, List.length_eraseIdx_of_lt hr],
    fun x => ?_⟩
  rw [hperm.mem_iff, mem_eraseIdx_iff hp hr]

/-- Draws that fit give distinct elements of the pool. The induction is on the draws, with the
pool left after each. -/
theorem selectLoop_mem_samples :
    ∀ (pool : List β) (rs : List ℕ), pool.Nodup → Fits pool.length rs →
      selectLoop next d pool rs ∈ samples pool rs.length
  | _, [], _, _ => ⟨rfl, List.nodup_nil, by simp [selectLoop]⟩
  | pool, r :: rs, hp, ⟨hr, hrs⟩ => by
    obtain ⟨hq, hlen, hmem⟩ := next_spec hnext hp hr
    obtain ⟨hlen', hnd, hsub⟩ :=
      selectLoop_mem_samples (next pool r) rs hq (by rwa [hlen])
    simp only [selectLoop, List.getD_eq_getElem _ _ hr]
    refine ⟨by simp [hlen'], List.nodup_cons.mpr ⟨fun hx => ?_, hnd⟩, ?_⟩
    · exact ((hmem _).mp (hsub _ hx)).1 rfl
    · intro x hx
      rcases List.mem_cons.mp hx with rfl | hx
      · exact List.getElem_mem hr
      · exact ((hmem x).mp (hsub x hx)).2

/-- Different draws give different tuples: the first draws pick different elements of a pool
without repeats, and after equal first draws the pools left are the same. -/
theorem selectLoop_inj :
    ∀ (pool : List β) (rs rs' : List ℕ), pool.Nodup → Fits pool.length rs → Fits pool.length rs' →
      rs.length = rs'.length → selectLoop next d pool rs = selectLoop next d pool rs' → rs = rs'
  | _, [], [], _, _, _, _, _ => rfl
  | _, [], _ :: _, _, _, _, hlen, _ => by simp at hlen
  | _, _ :: _, [], _, _, _, hlen, _ => by simp at hlen
  | pool, r :: rs, r' :: rs', hp, ⟨hr, hrs⟩, ⟨hr', hrs'⟩, hlen, h => by
    simp only [selectLoop, List.getD_eq_getElem _ _ hr, List.getD_eq_getElem _ _ hr',
      List.cons.injEq] at h
    obtain ⟨hhead, htail⟩ := h
    obtain rfl : r = r' := (hp.getElem_inj_iff).mp hhead
    obtain ⟨hq, hqlen, -⟩ := next_spec hnext hp hr
    rw [selectLoop_inj (next pool r) rs rs' hq (by rwa [hqlen]) (by rwa [hqlen])
      (by simpa using hlen) htail]

/-- Every tuple of distinct elements of the pool is drawn: its first element sits at some
index of the pool, and the rest are in the pool left after that draw. -/
theorem selectLoop_surj :
    ∀ (pool out : List β), pool.Nodup → out.Nodup → (∀ x ∈ out, x ∈ pool) →
      ∃ rs, rs.length = out.length ∧ Fits pool.length rs ∧ selectLoop next d pool rs = out
  | _, [], _, _, _ => ⟨[], rfl, trivial, rfl⟩
  | pool, x :: out, hp, hnd, hsub => by
    obtain ⟨r, hr, rfl⟩ := List.getElem_of_mem (hsub x List.mem_cons_self)
    obtain ⟨hx, hnd'⟩ := List.nodup_cons.mp hnd
    obtain ⟨hq, hqlen, hmem⟩ := next_spec hnext hp hr
    have hsub' : ∀ y ∈ out, y ∈ next pool r := fun y hy =>
      (hmem y).mpr ⟨fun h => hx (h ▸ hy), hsub y (List.mem_cons_of_mem _ hy)⟩
    obtain ⟨rs, hlen, hfits, hsel⟩ := selectLoop_surj (next pool r) out hq hnd' hsub'
    refine ⟨r :: rs, by simp [hlen], ⟨hr, hqlen ▸ hfits⟩, ?_⟩
    simp only [selectLoop, List.getD_eq_getElem _ _ hr, hsel]

/-- **Drawing without replacement is one to one**: from a pool without repeats, the `n`
numbers that fit are mapped onto the `n`-tuples of distinct elements of the pool, each drawn
by exactly one of them. -/
theorem selectLoop_bijOn (hp : pool.Nodup) (n : ℕ) :
    Set.BijOn (selectLoop next d pool) (draws pool.length n) (samples pool n) := by
  refine ⟨fun rs ⟨hlen, hfits⟩ => hlen ▸ selectLoop_mem_samples hnext pool rs hp hfits, ?_, ?_⟩
  · rintro rs ⟨hlen, hfits⟩ rs' ⟨hlen', hfits'⟩ h
    exact selectLoop_inj hnext pool rs rs' hp hfits hfits' (hlen.trans hlen'.symm) h
  · rintro out ⟨hlen, hnd, hsub⟩
    obtain ⟨rs, hrs, hfits, hsel⟩ := selectLoop_surj hnext pool out hp hnd hsub
    exact ⟨rs, ⟨hrs.trans hlen, hfits⟩, hsel⟩

end Lawful

end Select

import CRuby.Lib.Probing
import Mathlib.Data.List.Nodup
import Mathlib.Logic.Function.Basic

/-!
# Singly linked lists threaded through a heap

A list kept as a head pointer and a `next` field in every cell, as C keeps an intrusive list.
A *link* is where a pointer to a cell is stored: the head (`none`) or the `next` field of a cell
(`some a`), so a C pointer to a pointer (`T **p`) is a link.

* `IsChain next p l`: following `next` from `p` visits exactly the cells `l` and reaches `none`.
  Such a list is determined by `p` (`IsChain.unique`), visits no cell twice (`IsChain.nodup`),
  does not see writes to cells outside it (`IsChain.congr`) and grows by a cell pushed at its
  head (`IsChain.push`).
* `findLink` is the walk `while (*p != m) p = &(*p)->next;` on `Probing.walk`, and `setLink`
  the write `*p = v`. On a chain that holds `m` the walk ends within the chain's length on the
  link that holds `m` (`findLink_isSome`), and writing `m`'s successor there leaves the chain
  without `m` (`findLink_spec`).
-/

namespace Chain

variable {α : Type*}

/-! ## Chains -/

/-- Following `next` from `p` visits exactly the cells of `l`, in order, and ends in `none`. -/
inductive IsChain (next : α → Option α) : Option α → List α → Prop
  | nil : IsChain next none []
  | cons {a : α} {l : List α} : IsChain next (next a) l → IsChain next (some a) (a :: l)

variable {next next' : α → Option α} {p : Option α} {l l' : List α} {a : α}

@[simp] theorem isChain_none_iff : IsChain next none l ↔ l = [] := by
  constructor
  · rintro ⟨⟩
    rfl
  · rintro rfl
    exact .nil

theorem isChain_cons_iff : IsChain next p (a :: l) ↔ p = some a ∧ IsChain next (next a) l := by
  constructor
  · rintro ⟨⟩
    exact ⟨rfl, by assumption⟩
  · rintro ⟨rfl, h⟩
    exact .cons h

theorem isChain_some_iff : IsChain next (some a) l ↔ ∃ l', l = a :: l' ∧ IsChain next (next a) l' := by
  constructor
  · rintro ⟨⟩
    exact ⟨_, rfl, by assumption⟩
  · rintro ⟨l', rfl, h⟩
    exact .cons h

/-- The cells reached from `p` are determined by `p`. -/
theorem IsChain.unique (h : IsChain next p l) (h' : IsChain next p l') : l = l' := by
  induction h generalizing l' with
  | nil => exact ((isChain_none_iff).mp h').symm
  | cons _ ih =>
    obtain ⟨l'', rfl, h''⟩ := isChain_some_iff.mp h'
    rw [ih h'']

/-- From a cell of a chain, the rest of the chain is a chain no longer than the whole. -/
theorem IsChain.of_mem (h : IsChain next p l) (ha : a ∈ l) :
    ∃ l', (a :: l').length ≤ l.length ∧ IsChain next (some a) (a :: l') := by
  induction h with
  | nil => simp at ha
  | @cons b l hl ih =>
    rcases List.mem_cons.mp ha with rfl | ha
    · exact ⟨l, Nat.le_refl _, .cons hl⟩
    · obtain ⟨l', hlen, h'⟩ := ih ha
      exact ⟨l', Nat.le_trans hlen (Nat.le_succ _), h'⟩

/-- **A chain visits no cell twice**: a repeated cell would make the chain from it both the
rest of the list and a strictly shorter part of it. -/
theorem IsChain.nodup (h : IsChain next p l) : l.Nodup := by
  induction h with
  | nil => exact List.nodup_nil
  | @cons a l hl ih =>
    refine List.nodup_cons.mpr ⟨fun ha => ?_, ih⟩
    obtain ⟨l', hlen, h'⟩ := hl.of_mem ha
    have heq := (IsChain.cons hl).unique h'
    rw [← heq, List.length_cons] at hlen
    omega

/-- A chain does not see writes to cells outside it. -/
theorem IsChain.congr (h : IsChain next p l) (hn : ∀ b ∈ l, next' b = next b) :
    IsChain next' p l := by
  induction h with
  | nil => exact .nil
  | @cons a l _ ih =>
    refine .cons ?_
    rw [hn a List.mem_cons_self]
    exact ih fun b hb => hn b (List.mem_cons_of_mem a hb)

/-- Pushing a new cell at the head: its `next` field is set to the old head. -/
theorem IsChain.push [DecidableEq α] (h : IsChain next p l) (ha : a ∉ l) :
    IsChain (Function.update next a p) (some a) (a :: l) := by
  refine .cons ?_
  rw [Function.update_self]
  exact h.congr fun b hb => Function.update_of_ne (fun hba => ha (by rwa [hba] at hb)) _ _

/-! ## Links -/

/-- `*p`: what the link `p` holds. -/
def deref (head : Option α) (next : α → Option α) : Option α → Option α
  | none => head
  | some a => next a

@[simp] theorem deref_none (head : Option α) : deref head next none = head := rfl

@[simp] theorem deref_some (head : Option α) : deref head next (some a) = next a := rfl

/-- The head of a chain is its first cell. -/
theorem IsChain.eq_head (h : IsChain next p l) : p = l.head? := by
  cases h <;> rfl

/-! ## The walk to a cell -/

section Walk

variable [DecidableEq α]

/-- `*p = v`: the head and the `next` fields after writing the link `p`. -/
def setLink (head : Option α) (next : α → Option α) (v : Option α) :
    Option α → Option α × (α → Option α)
  | none => (v, next)
  | some a => (head, Function.update next a v)

variable {head : Option α} {v : Option α} {q : Option α}

@[simp] theorem deref_setLink_self (p : Option α) :
    deref (setLink head next v p).1 (setLink head next v p).2 p = v := by
  cases p <;> simp [deref, setLink]

theorem deref_setLink_of_ne (hpq : p ≠ q) :
    deref (setLink head next v q).1 (setLink head next v q).2 p = deref head next p := by
  cases p <;> cases q <;> simp_all [deref, setLink, Function.update_of_ne, Ne.symm]

/-- Writing the link `q` changes no `next` field but `q`'s own. -/
theorem setLink_next_of_ne {b : α} (hb : some b ≠ q) : (setLink head next v q).2 b = next b := by
  cases q with
  | none => rfl
  | some c => exact Function.update_of_ne (fun h => hb (by rw [h])) _ _

/-- What the walk sees at the link `p`: the cell `m` (stop at `p`), another cell (go on to its
`next` field), or a null link, which the next step would dereference. -/
def linkLook (head : Option α) (next : α → Option α) (m : α) (p : Option α) :
    Probing.Look (Option α) :=
  match deref head next p with
  | none => .stuck
  | some a => if a = m then .found p else .next

/-- `while (*p != m) p = &(*p)->next;` from the link `p`, for at most `fuel` looks: the link that
holds `m`, or `none` if the walk meets a null link or runs out of fuel. -/
def findLink (head : Option α) (next : α → Option α) (m : α) (fuel : ℕ) (p : Option α) :
    Option (Option α) :=
  Probing.walk (deref head next) (linkLook head next m) fuel p

theorem findLink_succ {m : α} (fuel : ℕ) (p : Option α) :
    findLink head next m (fuel + 1) p =
      match deref head next p with
      | none => none
      | some a => if a = m then some p else findLink head next m fuel (some a) := by
  unfold findLink
  rw [Probing.walk_succ, linkLook]
  rcases h : deref head next p with _ | a
  · rfl
  · by_cases ha : a = m
    · simp [ha]
    · simp [ha]

/-- **Unlinking at the link the walk finds removes `m`.** From a link `p` whose chain `l` holds
`m` and does not hold `p`'s own cell, the link `q` the walk answers is `p` or a cell of `l`, and
writing `m`'s successor into `q` leaves `l` without `m` as the chain from `p`. The induction is
on the chain from `p`. -/
theorem findLink_spec {m : α} {fuel : ℕ} {q : Option α} (h : IsChain next (deref head next p) l)
    (hm : m ∈ l) (hp : ∀ c, p = some c → c ∉ l) (hq : findLink head next m fuel p = some q) :
    (q = p ∨ ∃ c ∈ l, q = some c) ∧
      IsChain (setLink head next (next m) q).2
        (deref (setLink head next (next m) q).1 (setLink head next (next m) q).2 p) (l.erase m) := by
  induction l generalizing p fuel with
  | nil => simp at hm
  | cons a l ih =>
    obtain ⟨hda, hrest⟩ := isChain_cons_iff.mp h
    obtain ⟨fuel, rfl⟩ : ∃ f, fuel = f + 1 := by
      cases fuel with
      | zero => simp [findLink] at hq
      | succ f => exact ⟨f, rfl⟩
    rw [findLink_succ, hda] at hq
    have hpa : ∀ c, p = some c → c ≠ a := fun c hc hca => hp c hc (hca ▸ List.mem_cons_self)
    by_cases ham : a = m
    · -- `m` is at `p`: its successor is written into `p`
      subst ham
      simp only [if_true, Option.some.injEq] at hq
      subst hq
      refine ⟨.inl rfl, ?_⟩
      rw [deref_setLink_self, List.erase_cons_head]
      refine hrest.congr fun b hb => setLink_next_of_ne ?_
      rintro rfl
      exact hp b rfl (List.mem_cons_of_mem _ hb)
    · -- on to `a`'s `next` field, which does not hold `a` since the chain has no repeats
      simp only [ham, if_false] at hq
      have hm' : m ∈ l := (List.mem_cons.mp hm).resolve_left (Ne.symm ham)
      have ha' : a ∉ l := (List.nodup_cons.mp h.nodup).1
      obtain ⟨hqmem, hchain⟩ := ih (p := some a) hrest hm' (fun c hc => Option.some.inj hc ▸ ha') hq
      have hqp : p ≠ q := by
        rintro rfl
        rcases hqmem with hq' | ⟨c, hc, hq'⟩
        · exact hpa a hq' rfl
        · exact hp c hq' (List.mem_cons_of_mem _ hc)
      refine ⟨?_, ?_⟩
      · rcases hqmem with rfl | ⟨c, hc, rfl⟩
        · exact .inr ⟨a, List.mem_cons_self, rfl⟩
        · exact .inr ⟨c, List.mem_cons_of_mem _ hc, rfl⟩
      · rw [deref_setLink_of_ne hqp, hda, List.erase_cons_tail (by simpa using ham)]
        exact .cons hchain

/-- **The walk ends**: on a chain that holds `m`, within the chain's length. -/
theorem findLink_isSome {m : α} {fuel : ℕ} (h : IsChain next (deref head next p) l) (hm : m ∈ l)
    (hfuel : l.length ≤ fuel) : ∃ q, findLink head next m fuel p = some q := by
  induction l generalizing p fuel with
  | nil => simp at hm
  | cons a l ih =>
    obtain ⟨hda, hrest⟩ := isChain_cons_iff.mp h
    obtain ⟨fuel, rfl⟩ : ∃ f, fuel = f + 1 := ⟨fuel - 1, by simp at hfuel; omega⟩
    rw [findLink_succ, hda]
    by_cases ham : a = m
    · exact ⟨p, by simp [ham]⟩
    · simp only [ham, if_false]
      exact ih (p := some a) hrest ((List.mem_cons.mp hm).resolve_left (Ne.symm ham))
        (by simpa using hfuel)

end Walk

end Chain

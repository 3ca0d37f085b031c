import Mathlib.Data.List.DropRight
import Mathlib.Data.List.Infix
import Mathlib.Data.List.Chain

/-!
# Tokens

The maximal separator-free runs of a list, in order: what is left of
`List.splitOn` once the empty pieces are dropped.

## Main results

- `tokens_append_cons`: a separator cuts the tokens in two
- `tokens_rdropWhile`, `tokens_dropWhile`: separators at either end do not matter
- `tokens_joined`: joining tokens and splitting again
- `eq_canon`: a list without repeated separators is determined by its tokens
-/

namespace OasRs.Lib.Tokens

variable {α : Type*} (s : α)

/-- Every token with a separator before it. -/
def joined (ts : List (List α)) : List α := ts.flatMap (s :: ·)

@[simp] theorem joined_nil : joined s ([] : List (List α)) = [] := rfl

@[simp] theorem joined_cons (t : List α) (ts : List (List α)) :
    joined s (t :: ts) = s :: (t ++ joined s ts) := by
  simp [joined]

@[simp] theorem joined_append (ts us : List (List α)) :
    joined s (ts ++ us) = joined s ts ++ joined s us :=
  List.flatMap_append

variable [DecidableEq α]

/-- The maximal non-empty runs of `l` without the separator `s`. -/
def tokens (l : List α) : List (List α) := (l.splitOn s).filter fun t => !t.isEmpty

/-- The tokens of a list are words: not empty, and without a separator. -/
def IsToken (t : List α) : Prop := t ≠ [] ∧ s ∉ t

instance (t : List α) : Decidable (IsToken s t) := inferInstanceAs (Decidable (_ ∧ _))

variable {s}

/-! ## Splitting -/

@[simp] theorem tokens_nil : tokens s ([] : List α) = [] := by
  simp [tokens]

/-- The pieces between the separators have none. -/
theorem sep_notMem_of_mem_splitOn {l t : List α} (h : t ∈ l.splitOn s) : s ∉ t := by
  induction l generalizing t with
  | nil =>
    rw [List.splitOn_nil, List.mem_singleton] at h
    simp [h]
  | cons a l ih =>
    rw [List.splitOn_cons_eq_if_modifyHead] at h
    split at h
    · rcases List.mem_cons.mp h with rfl | h
      · simp
      · exact ih h
    · rename_i ha
      -- `a` goes to the first piece
      obtain ⟨first, rest, hsplit⟩ := List.exists_cons_of_ne_nil (List.splitOn_ne_nil s l)
      rw [hsplit, List.modifyHead_cons, List.mem_cons] at h
      rcases h with rfl | h
      · have hfirst := ih (hsplit ▸ List.mem_cons_self)
        simpa [hfirst] using fun heq : s = a => ha (by simp [heq])
      · exact ih (hsplit ▸ List.mem_cons_of_mem _ h)

/-- Pieces without the separator are found again. -/
theorem splitOn_append_joined {t : List α} {ts : List (List α)} (ht : s ∉ t)
    (hts : ∀ u ∈ ts, s ∉ u) : (t ++ joined s ts).splitOn s = t :: ts := by
  induction ts generalizing t with
  | nil => simpa using List.splitOn_eq_singleton ht
  | cons u ts ih =>
    obtain ⟨hu, hrest⟩ := List.forall_mem_cons.mp hts
    rw [joined_cons, List.splitOn_append_cons_self_of_not_mem ht, ih hu hrest]

/-- A separator cuts the tokens in two. -/
theorem tokens_append_cons (l m : List α) :
    tokens s (l ++ s :: m) = tokens s l ++ tokens s m := by
  have hsplit : (l ++ s :: m).splitOn s = l.splitOn s ++ m.splitOn s := by
    simp only [List.splitOn]
    exact List.splitOnP_append_cons l m (by simp)
  simp only [tokens, hsplit, List.filter_append]

@[simp] theorem tokens_cons_self (l : List α) : tokens s (s :: l) = tokens s l := by
  simpa using tokens_append_cons (s := s) [] l

/-- A word is its own only token. -/
theorem tokens_of_isToken {t : List α} (ht : IsToken s t) : tokens s t = [t] := by
  have hsplit : t.splitOn s = [t] := by
    simp only [List.splitOn]
    apply List.splitOnP_eq_singleton
    intro x hx
    have : x ≠ s := fun h => ht.2 (h ▸ hx)
    simpa using this
  cases t with
  | nil => exact absurd rfl ht.1
  | cons a t => simp [tokens, hsplit]

/-- A word before a separator is the first token. -/
theorem tokens_isToken_append {t : List α} (ht : IsToken s t) (l : List α) :
    tokens s (t ++ s :: l) = t :: tokens s l := by
  rw [tokens_append_cons, tokens_of_isToken ht, List.singleton_append]

@[simp] theorem tokens_replicate (n : ℕ) : tokens s (List.replicate n s) = [] := by
  induction n with
  | zero => simp
  | succ n ih => rw [List.replicate_succ, tokens_cons_self, ih]

theorem tokens_append_replicate (l : List α) (n : ℕ) :
    tokens s (l ++ List.replicate n s) = tokens s l := by
  cases n with
  | zero => simp
  | succ n => rw [List.replicate_succ, tokens_append_cons, tokens_replicate, List.append_nil]

/-- Separators in front do not matter. -/
theorem tokens_dropWhile (l : List α) : tokens s (l.dropWhile (· == s)) = tokens s l := by
  induction l with
  | nil => simp
  | cons a l ih =>
    by_cases h : a = s
    · subst h
      simpa using ih
    · simp [h]

/-- Separators at the end do not matter. -/
theorem tokens_rdropWhile (l : List α) : tokens s (l.rdropWhile (· == s)) = tokens s l := by
  induction l using List.reverseRecOn with
  | nil => simp
  | append_singleton l a ih =>
    by_cases h : a = s
    · subst h
      rw [List.rdropWhile_concat_pos _ _ _ (by simp), ih]
      exact (tokens_append_replicate l 1).symm
    · rw [List.rdropWhile_concat_neg _ _ _ (by simpa using h)]

/-- Where the tokens come from: a list is empty, a separator and a list, or a word
    followed by nothing or by a separator. -/
theorem word_cases (l : List α) :
    l = [] ∨ (∃ m, l = s :: m) ∨ IsToken s l ∨ ∃ t m, IsToken s t ∧ l = t ++ s :: m := by
  induction l with
  | nil => exact .inl rfl
  | cons a l ih =>
    by_cases ha : a = s
    · subst ha
      exact .inr (.inl ⟨l, rfl⟩)
    · have hword : ∀ t, s ∉ t → IsToken s (a :: t) := fun t ht =>
        ⟨List.cons_ne_nil _ _, by simpa [Ne.symm ha] using ht⟩
      rcases ih with rfl | ⟨m, rfl⟩ | ht | ⟨t, m, ht, rfl⟩
      · exact .inr (.inr (.inl (hword [] (by simp))))
      · exact .inr (.inr (.inr ⟨[a], m, hword [] (by simp), rfl⟩))
      · exact .inr (.inr (.inl (hword l ht.2)))
      · exact .inr (.inr (.inr ⟨a :: t, m, hword t ht.2, rfl⟩))

/-- Induction along the tokens of a list. -/
theorem tokens_induction {motive : List α → Prop} (nil : motive [])
    (sep : ∀ m, motive m → motive (s :: m))
    (word : ∀ t, IsToken s t → motive t)
    (append : ∀ t m, IsToken s t → motive m → motive (t ++ s :: m)) (l : List α) : motive l := by
  induction hn : l.length using Nat.strong_induction_on generalizing l with
  | _ n ih =>
    subst hn
    rcases word_cases (s := s) l with rfl | ⟨m, rfl⟩ | ht | ⟨t, m, ht, rfl⟩
    · exact nil
    · exact sep m (ih _ (by simp) m rfl)
    · exact word l ht
    · exact append t m ht (ih _ (by simp; omega) m rfl)

theorem isToken_of_mem_tokens {l t : List α} (h : t ∈ tokens s l) : IsToken s t := by
  induction l using tokens_induction (s := s) with
  | nil => simp at h
  | sep m ih => exact ih (by simpa using h)
  | word u hu =>
    rw [tokens_of_isToken hu, List.mem_singleton] at h
    exact h ▸ hu
  | append u m hu ih =>
    rw [tokens_isToken_append hu, List.mem_cons] at h
    rcases h with rfl | h
    · exact hu
    · exact ih h

/-- A list without tokens has nothing but separators. -/
theorem getLast_of_tokens_eq_nil {l : List α} (h : tokens s l = []) :
    l = [] ∨ l.getLast? = some s := by
  induction l using tokens_induction (s := s) with
  | nil => exact .inl rfl
  | sep m ih =>
    rcases ih (by simpa using h) with rfl | hlast
    · exact .inr rfl
    · exact .inr (by rw [List.getLast?_cons, hlast]; rfl)
  | word t ht => simp [tokens_of_isToken ht] at h
  | append t m ht ih => simp [tokens_isToken_append ht] at h

/-- Reading the first token from the left: skip separators, then take up to the next
    separator. -/
theorem tokens_span (l : List α) :
    (l.dropWhile (· == s) = [] ∧ tokens s l = []) ∨
    (IsToken s ((l.dropWhile (· == s)).takeWhile (· != s)) ∧
      tokens s l = (l.dropWhile (· == s)).takeWhile (· != s) ::
        tokens s ((l.dropWhile (· == s)).dropWhile (· != s))) := by
  rw [← tokens_dropWhile (s := s) l]
  have hhead : ∀ m, l.dropWhile (· == s) ≠ s :: m := by
    intro m hm
    have := List.head_dropWhile_not (· == s) (l := l) (by simp [hm])
    simp [hm] at this
  have hfree : ∀ {t : List α}, IsToken s t → ∀ x ∈ t, (x != s) = true := by
    intro t ht x hx
    simpa using fun h : x = s => ht.2 (h ▸ hx)
  rcases word_cases (s := s) (l.dropWhile (· == s)) with h | ⟨m, h⟩ | ht | ⟨t, m, ht, h⟩
  · left
    simp [h]
  · exact absurd h (hhead m)
  · right
    rw [List.takeWhile_eq_self_iff.mpr (hfree ht), List.dropWhile_eq_nil_iff.mpr (hfree ht)]
    simpa [tokens_of_isToken ht] using ht
  · right
    rw [h, List.takeWhile_append_of_pos (hfree ht), List.dropWhile_append_of_pos (hfree ht)]
    simpa [tokens_isToken_append ht] using ht

/-! ## Joining -/

/-- Splitting what was joined. -/
theorem tokens_joined {ts : List (List α)} (h : ∀ t ∈ ts, IsToken s t) :
    tokens s (joined s ts) = ts := by
  induction ts with
  | nil => simp
  | cons t ts ih =>
    have ht : IsToken s t := h t (by simp)
    have hts := ih fun u hu => h u (by simp [hu])
    cases ts with
    | nil => simpa using tokens_of_isToken ht
    | cons u us =>
      rw [joined_cons, tokens_cons_self]
      rw [joined_cons] at hts ⊢
      rw [tokens_isToken_append ht, ← tokens_cons_self, hts]

/-- The list with given tokens that has one separator before each of them, and is a
    single separator where there are none. -/
def canon (s : α) (ts : List (List α)) : List α := if ts.isEmpty then [s] else joined s ts

omit [DecidableEq α] in
private theorem isChain_joined {ts : List (List α)} (h : ∀ t ∈ ts, IsToken s t) :
    (joined s ts).IsChain fun a b => ¬ (a = s ∧ b = s) := by
  induction ts with
  | nil => simp
  | cons t ts ih =>
    have ht : IsToken s t := h t (by simp)
    rw [joined_cons, ← List.cons_append, List.isChain_append]
    refine ⟨?_, ih fun u hu => h u (by simp [hu]), ?_⟩
    · rw [List.isChain_iff_forall_rel_of_append_cons_cons]
      rintro a b l₁ l₂ heq ⟨-, rfl⟩
      -- the second of two neighbours is not the first element, so it is in the word
      apply ht.2
      cases l₁ with
      | nil =>
        rw [List.nil_append, List.cons.injEq] at heq
        simp [heq.2]
      | cons c l₁ =>
        rw [List.cons_append, List.cons.injEq] at heq
        simp [heq.2]
    · intro x hx y _ ⟨hxs, _⟩
      rw [List.getLast?_cons_of_ne_nil ht.1] at hx
      exact ht.2 (hxs ▸ List.mem_of_getLast? hx)

omit [DecidableEq α] in
/-- A canonical list starts with a separator and has no two in a row. -/
theorem canon_head_and_double {ts : List (List α)} (h : ∀ t ∈ ts, IsToken s t) :
    (canon s ts).head? = some s ∧ ¬ [s, s] <:+: canon s ts := by
  cases ts with
  | nil =>
    refine ⟨rfl, fun hinfix => ?_⟩
    have := hinfix.length_le
    simp [canon] at this
  | cons t ts =>
    refine ⟨by simp [canon], ?_⟩
    rintro ⟨l₁, l₂, heq⟩
    have hchain := isChain_joined h
    rw [List.isChain_iff_forall_rel_of_append_cons_cons] at hchain
    refine @hchain s s l₁ l₂ ?_ ⟨rfl, rfl⟩
    have heq' : l₁ ++ [s, s] ++ l₂ = joined s (t :: ts) := by simpa [canon] using heq
    rw [← heq']
    simp

/-- A list that starts with a separator, has no two in a row and does not end in one is
    the join of its tokens. -/
theorem eq_joined (m : List α) (hdouble : ¬ [s, s] <:+: s :: m)
    (hlast : ∀ h : m ≠ [], m.getLast h ≠ s) (hm : m ≠ []) :
    s :: m = joined s (tokens s m) := by
  induction m using tokens_induction (s := s) with
  | nil => exact absurd rfl hm
  | sep m _ => exact absurd ⟨[], m, rfl⟩ hdouble
  | word t ht => simp [tokens_of_isToken ht]
  | append t m ht ih =>
    have hm' : m ≠ [] := by
      rintro rfl
      exact hlast (by simp) (by simp)
    have htail : ¬ [s, s] <:+: s :: m := fun h =>
      hdouble (h.trans ((List.suffix_append (s :: t) (s :: m)).isInfix))
    have := ih htail (fun h => by simpa [h] using hlast (by simp)) hm'
    rw [tokens_isToken_append ht, joined_cons, ← this]

/-- With no repeated separator, a list that starts with one is the canonical list of
    its tokens, up to a separator at the end. -/
theorem rdropWhile_eq_canon {l : List α} (hhead : l.head? = some s) (hdouble : ¬ [s, s] <:+: l)
    (hlen : 1 < l.length) : l.rdropWhile (· == s) = canon s (tokens s l) := by
  obtain ⟨m, rfl⟩ : ∃ m, l = s :: m := by
    cases l with
    | nil => simp at hhead
    | cons a m =>
      rw [List.head?_cons, Option.some.injEq] at hhead
      exact ⟨m, by rw [hhead]⟩
  have hm : m ≠ [] := by
    rintro rfl
    simp at hlen
  -- Two cases: the list ends in a separator, which is then the only one dropped, or not.
  have hjoin : ∀ m : List α, m ≠ [] → ¬ [s, s] <:+: s :: m → (∀ h : m ≠ [], m.getLast h ≠ s) →
      (s :: m).rdropWhile (· == s) = canon s (tokens s m) := by
    intro m hm hdouble hlast
    have hself : (s :: m).rdropWhile (· == s) = s :: m := by
      rw [List.rdropWhile_eq_self_iff]
      intro _
      simpa [List.getLast_cons hm] using hlast hm
    have hcanon := eq_joined m hdouble hlast hm
    have hne : (tokens s m).isEmpty = false := by
      cases hts : tokens s m with
      | nil => simp [hts] at hcanon
      | cons => rfl
    rw [hself, canon, hne]
    exact hcanon
  rw [tokens_cons_self]
  obtain ⟨m', a, rfl⟩ : ∃ m' a, m = m' ++ [a] := ⟨_, _, (List.dropLast_append_getLast hm).symm⟩
  by_cases ha : a = s
  · subst ha
    have hm' : m' ≠ [] := by
      rintro rfl
      exact hdouble ⟨[], [], rfl⟩
    have hsub : a :: m' <:+: a :: (m' ++ [a]) := ⟨[], [a], by simp⟩
    have hlast : ∀ h : m' ≠ [], m'.getLast h ≠ a := by
      intro h hl
      apply hdouble
      refine ⟨a :: m'.dropLast, [], ?_⟩
      have := List.dropLast_append_getLast h
      rw [hl] at this
      calc a :: m'.dropLast ++ [a, a] ++ [] = a :: (m'.dropLast ++ [a] ++ [a]) := by simp
        _ = a :: (m' ++ [a]) := by rw [this]
    have h := hjoin m' hm' (fun h => hdouble (h.trans hsub)) hlast
    have htok : tokens a (m' ++ [a]) = tokens a m' := tokens_append_replicate m' 1
    rw [htok, ← h, ← List.cons_append, List.rdropWhile_concat_pos _ _ _ (by simp)]
  · exact hjoin _ hm hdouble fun _ => by simpa using ha

end OasRs.Lib.Tokens

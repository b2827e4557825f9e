import OpeningTimes.Expression.Grammar.Reading
import OpeningTimes.Proofs.Expression.WellFormed

/-!
# What readers give

A reader either gives something with a wanted property and a rest that ends the list it was given,
or it fails at one of the lexemes of that list or at its end. `Reads` says so of a reader; the
lemmas here put readers together.
-/

namespace OpeningTimes.Grammar

/-- Lexemes that some text is read as. -/
def Valid (ts : List Lexeme) : Prop := ∀ t ∈ ts, t.Valid

theorem Valid.of_suffix {ts rest : List Lexeme} (h : Valid ts) (hrest : rest <:+ ts) : Valid rest :=
  fun u hu => h u (hrest.subset hu)

/-- How a reader that starts with some lexemes may end. -/
def Ends (P : α → Prop) (ts : List Lexeme) : Except Failure (α × List Lexeme) → Prop
  | .ok (x, rest) => P x ∧ rest <:+ ts
  | .error failure => failure.left ≤ ts.length

def Reads (read : Reader α) (P : α → Prop) : Prop :=
  ∀ ts, Valid ts → Ends P ts (read ts)

section

variable {P : α → Prop} {Q : β → Prop} {ts rest : List Lexeme}

theorem Ends.ok {x : α} (hx : P x) (hrest : rest <:+ ts) : Ends P ts (.ok (x, rest)) :=
  ⟨hx, hrest⟩

theorem Ends.fail {expected : Expected} (hrest : rest <:+ ts) :
    Ends P ts (Grammar.fail expected rest) :=
  hrest.length_le

theorem Ends.of_suffix {r : Except Failure (α × List Lexeme)} (h : Ends P rest r)
    (hrest : rest <:+ ts) : Ends P ts r := by
  cases r with
  | ok result => exact ⟨h.1, h.2.trans hrest⟩
  | error failure => exact Nat.le_trans h hrest.length_le

theorem Ends.mono {P' : α → Prop} {r : Except Failure (α × List Lexeme)} (h : Ends P ts r)
    (hP : ∀ x, P x → P' x) : Ends P' ts r := by
  cases r with
  | ok result => exact ⟨hP _ h.1, h.2⟩
  | error failure => exact h

theorem Ends.bind {r : Except Failure (α × List Lexeme)}
    {f : α × List Lexeme → Except Failure (β × List Lexeme)} (hr : Ends P ts r)
    (hf : ∀ x rest, P x → rest <:+ ts → Ends Q ts (f (x, rest))) : Ends Q ts (r >>= f) := by
  cases r with
  | ok result => exact hf _ _ hr.1 hr.2
  | error failure => exact hr

theorem Ends.map {r : Except Failure (α × List Lexeme)} {f : α × List Lexeme → β × List Lexeme}
    (hr : Ends P ts r)
    (hf : ∀ x rest, P x → rest <:+ ts → Q (f (x, rest)).1 ∧ (f (x, rest)).2 <:+ ts) :
    Ends Q ts (r.map f) := by
  cases r with
  | ok result => exact hf _ _ hr.1 hr.2
  | error failure => exact hr

theorem Reads.after {read : Reader α} (h : Reads read P) (hts : Valid ts) (hrest : rest <:+ ts) :
    Ends P ts (read rest) :=
  (h rest (hts.of_suffix hrest)).of_suffix hrest

theorem reads_one {expected : Expected} {meaning : Lexeme → Option α}
    (h : ∀ t x, t.Valid → meaning t = some x → P x) : Reads (one expected meaning) P := by
  intro ts hts
  cases ts with
  | nil => exact .fail (List.suffix_refl _)
  | cons t ts =>
    simp only [one]
    split
    · rename_i x hx
      exact .ok (h t x (hts t (by simp)) hx) (List.suffix_cons ..)
    · exact .fail (List.suffix_refl _)

theorem reads_mark {expected : Expected} {wanted : Mark} :
    Reads (mark expected wanted) fun _ => True :=
  reads_one fun _ _ _ _ => trivial

-- ---------------------------------------------------------------------------
-- Lists
-- ---------------------------------------------------------------------------

theorem reads_moreItems {item : Reader α} (h : Reads item P) (starts : List Lexeme → Bool)
    (bound : Nat) : Reads (moreItems item starts bound) fun xs => ∀ x ∈ xs, P x := by
  induction bound with
  | zero => exact fun ts _ => .ok (by simp) (List.suffix_refl _)
  | succ bound ih =>
    intro ts hts
    unfold moreItems
    split
    · rename_i hbound
      cases hbound
      split
      · refine (h.after hts (List.suffix_cons ..)).bind fun x rest hx hrest => ?_
        refine (ih.after hts hrest).bind fun xs rest hxs hrest => ?_
        refine .ok ?_ hrest
        simpa using ⟨hx, hxs⟩
      · exact .ok (by simp) (List.suffix_refl _)
    · exact .ok (by simp) (List.suffix_refl _)

theorem reads_items {item : Reader α} (h : Reads item P) (starts : List Lexeme → Bool) :
    Reads (items item starts) fun xs => xs ≠ [] ∧ ∀ x ∈ xs, P x := by
  intro ts hts
  refine (h ts hts).bind fun x rest hx hrest => ?_
  refine ((reads_moreItems h starts _).after hts hrest).bind fun xs rest hxs hrest => ?_
  refine .ok ⟨by simp, ?_⟩ hrest
  simpa using ⟨hx, hxs⟩

theorem reads_optionalItems {item : Reader α} (h : Reads item P) (starts : List Lexeme → Bool) :
    Reads (optionalItems item starts) fun xs => ∀ x ∈ xs, P x := by
  intro ts hts
  unfold optionalItems
  split
  · exact (reads_items h starts ts hts).mono fun _ hxs => hxs.2
  · exact .ok (by simp) (List.suffix_refl _)

end

end OpeningTimes.Grammar

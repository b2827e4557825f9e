import OpeningTimes.Expression.Grammar.Rules
import OpeningTimes.Proofs.Expression.Spelling

/-!
# The parts of a rule as they are written

A rule is written part by part in the order in which its parts are read, and its state is always
written. So whatever comes after a part starts a later one, and no reader takes more than what was
written for it.
-/

namespace OpeningTimes.Grammar

/-- Which part of a rule some lexemes go on with: years, months and days, weeks, weekdays and
holidays, times, or the state. Zero is none of them. -/
def place : List Lexeme → Nat
  | .number _ 4 :: .month _ :: _ => 2
  | .number _ 4 :: _ => 1
  | .month _ :: _ => 2
  | .keyword .week :: _ => 3
  | .weekday _ :: _ => 4
  | .keyword (.holiday _) :: _ => 4
  | .clock _ _ :: _ => 5
  | .mark .leftParen :: _ => 5
  | .keyword (.solar _) :: _ => 5
  | .keyword _ :: _ => 6
  | _ => 0

theorem startsYear_eq (ts : List Lexeme) : startsYear ts = (place ts == 1) := by
  fun_cases place ts <;> simp_all [startsYear]

theorem startsCalendarSpan_eq (ts : List Lexeme) : startsCalendarSpan ts = (place ts == 2) := by
  fun_cases place ts <;> simp_all [startsCalendarSpan]

theorem startsDayEntry_eq (ts : List Lexeme) : startsDayEntry ts = (place ts == 4) := by
  fun_cases place ts <;> simp_all [startsDayEntry]

theorem startsTime_eq (ts : List Lexeme) : startsTime ts = (place ts == 5) := by
  fun_cases place ts <;> simp_all [startsTime]

@[simp] theorem ok_bind (x : α) (f : α → Except Failure β) : (Except.ok x >>= f) = f x := rfl

-- ---------------------------------------------------------------------------
-- Lists
-- ---------------------------------------------------------------------------

/-- Lexemes that do not go on with the item before them. -/
def Apart : List Lexeme → Prop
  | .mark .dash :: _ => False
  | .mark .plus :: _ => False
  | .mark .leftBracket :: _ => False
  | _ => True

/-- Lexemes that neither go on with the item before them nor with a list of items. -/
def EndsList (ts : List Lexeme) : Prop :=
  Apart ts ∧ ts.head? ≠ some (.mark .comma)

theorem endsList_of_place {ts : List Lexeme} (h : 0 < place ts) : EndsList ts := by
  fun_cases place ts <;> simp_all [EndsList, Apart, place]

/-- Some lexemes that an item is written with and read from. -/
structure Spells (item : Reader α) (ts : List Lexeme) (x : α) : Prop where
  spellable : ∀ t ∈ ts, t.Spellable
  reads : ∀ rest, Apart rest → item (ts ++ rest) = .ok (x, rest)

/-- The items after the first one, each with its mark before it. -/
def following (separator : α → Mark) (spell : α → List Lexeme) (xs : List α) : List Lexeme :=
  xs.flatMap fun x => .mark (separator x) :: spell x

def joined (separator : α → Mark) (spell : α → List Lexeme) : List α → List Lexeme
  | [] => []
  | x :: xs => spell x ++ following separator spell xs

def listed (spell : α → List Lexeme) (xs : List α) : List Lexeme :=
  joined (fun _ => .comma) spell xs

theorem spellable_joined {separator : α → Mark} {spell : α → List Lexeme} {xs : List α}
    (h : ∀ x ∈ xs, ∀ t ∈ spell x, t.Spellable) :
    ∀ t ∈ joined separator spell xs, t.Spellable := by
  cases xs with
  | nil => simp [joined]
  | cons x xs =>
    intro t ht
    simp only [joined, following, List.mem_append, List.mem_flatMap, List.mem_cons] at ht
    rcases ht with ht | ⟨y, hy, rfl | ht⟩
    · exact h x (by simp) t ht
    · exact Lexeme.spellable_mark _
    · exact h y (.tail _ hy) t ht

theorem length_le_following (separator : α → Mark) (spell : α → List Lexeme) (xs : List α) :
    xs.length ≤ (following separator spell xs).length := by
  induction xs with
  | nil => exact Nat.zero_le _
  | cons x xs ih =>
    simp only [following, List.flatMap_cons, List.length_append, List.length_cons] at ih ⊢
    omega

section

variable {item : Reader β} {starts : List Lexeme → Bool} {spell : α → List Lexeme}
    {rest : List Lexeme}

theorem apart_following (spell : α → List Lexeme) (xs : List α) (h : Apart rest) :
    Apart (following (fun _ => .comma) spell xs ++ rest) := by
  cases xs with
  | nil => exact h
  | cons x xs => trivial

theorem moreItems_ends (hrest : EndsList rest) (bound : Nat) :
    moreItems item starts bound rest = .ok ([], rest) := by
  unfold moreItems
  split
  · exact absurd rfl hrest.2
  · rfl

section

variable {f : α → β} {xs : List α} (h : ∀ x ∈ xs, Spells item (spell x) (f x))
  (hstarts : ∀ x ∈ xs, ∀ rest, starts (spell x ++ rest) = true) (hrest : EndsList rest)
include h hstarts hrest

theorem moreItems_following {bound : Nat} (hbound : xs.length ≤ bound) :
    moreItems item starts bound (following (fun _ => .comma) spell xs ++ rest) =
      .ok (xs.map f, rest) := by
  induction xs generalizing bound with
  | nil => exact moreItems_ends hrest bound
  | cons x xs ih =>
    cases bound with
    | zero => cases hbound
    | succ bound =>
      have hx := (h x (by simp)).reads _ (apart_following spell xs hrest.1)
      have hxs := ih (fun y hy => h y (.tail _ hy)) (fun y hy => hstarts y (.tail _ hy))
        (Nat.le_of_succ_le_succ hbound)
      have htext : following (fun _ => .comma) spell (x :: xs) ++ rest
          = .mark .comma :: (spell x ++ (following (fun _ => .comma) spell xs ++ rest)) := by
        simp [following]
      rw [htext, moreItems, if_pos (hstarts x (by simp) _)]
      simp only [hx, ok_bind, hxs]
      rfl

theorem items_listed_map (hne : xs ≠ []) :
    items item starts (listed spell xs ++ rest) = .ok (xs.map f, rest) := by
  cases xs with
  | nil => exact absurd rfl hne
  | cons x xs =>
    have hx := (h x (by simp)).reads _ (apart_following spell xs hrest.1)
    have hlength : xs.length ≤ (following (fun _ => .comma) spell xs ++ rest).length := by
      rw [List.length_append]
      exact Nat.le_trans (length_le_following _ spell xs) (Nat.le_add_right ..)
    have hxs := moreItems_following (fun y hy => h y (.tail _ hy))
      (fun y hy => hstarts y (.tail _ hy))
      hrest hlength
    simp only [items, listed, joined, List.append_assoc, hx, ok_bind, hxs]
    rfl

end

theorem items_listed {item : Reader α} {xs : List α} (h : ∀ x ∈ xs, Spells item (spell x) x)
    (hstarts : ∀ x ∈ xs, ∀ rest, starts (spell x ++ rest) = true) (hrest : EndsList rest)
    (hne : xs ≠ []) : items item starts (listed spell xs ++ rest) = .ok (xs, rest) := by
  have all := items_listed_map (f := id) h hstarts hrest hne
  rwa [List.map_id] at all

end

-- ---------------------------------------------------------------------------
-- Parts
-- ---------------------------------------------------------------------------

/-- Some lexemes that a part of a rule is written with and read from, where a later part
comes next. -/
structure Fills (k : Nat) (read : Reader α) (ts : List Lexeme) (x : α) : Prop where
  spellable : ∀ t ∈ ts, t.Spellable
  reads : ∀ rest, k < place rest → read (ts ++ rest) = .ok (x, rest)
  place_le : ∀ rest, k < place rest → k ≤ place (ts ++ rest)

theorem fills_optionalItems {item : Reader α} {starts : List Lexeme → Bool}
    {spell : α → List Lexeme} {k : Nat} {xs : List α} (hstarts : ∀ ts, starts ts = (place ts == k))
    (h : ∀ x ∈ xs, Spells item (spell x) x)
    (hplace : ∀ x ∈ xs, ∀ rest, place (spell x ++ rest) = k) :
    Fills k (optionalItems item starts) (listed spell xs) xs where
  spellable := spellable_joined fun x hx => (h x hx).spellable
  reads rest hrest := by
    cases xs with
    | nil =>
      rw [optionalItems, if_neg]
      · rfl
      · simp [listed, joined, hstarts, Nat.ne_of_gt hrest]
    | cons x xs =>
      have first : starts (listed spell (x :: xs) ++ rest) = true := by
        simp [hstarts, listed, joined, hplace x (by simp)]
      rw [optionalItems, if_pos first]
      exact items_listed h (fun y hy rest => by simp [hstarts, hplace y hy])
        (endsList_of_place (Nat.zero_lt_of_lt hrest)) (by simp)
  place_le rest hrest := by
    cases xs with
    | nil => exact Nat.le_of_lt hrest
    | cons x xs => simp [listed, joined, hplace x (by simp)]

end OpeningTimes.Grammar

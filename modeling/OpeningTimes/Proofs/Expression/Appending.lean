import OpeningTimes.Proofs.Expression.Parts

/-!
# Lexemes with others after them

A reader looks at the lexemes that come next to see whether it goes on. Where the lexemes after all
that it was given are of no use to it, it gives the same and leaves those as well. `Carries` says so
of what a reader gives with and without the tail; the lemmas here put readers together.
-/

namespace OpeningTimes.Grammar

/-- A list of items does not go on with the tail: something is left before it, or it starts with no
comma. -/
def Separate (tail rest : List Lexeme) : Prop :=
  rest = [] → tail.head? ≠ some (.mark .comma)

/-- From some lexemes a reader takes those of one kind at the front, and with a tail after all of
them it does the same, unless a list could go on with the tail. -/
def Carries (tail : List Lexeme) (kind : Lexeme → Bool) (ts : List Lexeme)
    (r r' : Except Failure (α × List Lexeme)) : Prop :=
  ∀ x rest, r = .ok (x, rest) → (∃ taken, ts = taken ++ rest ∧ ∀ t ∈ taken, kind t = true) ∧
    (Separate tail rest → r' = .ok (x, rest ++ tail))

theorem exists_of_bind_ok {r : Except ε α} {f : α → Except ε β} {y : β}
    (h : r >>= f = .ok y) : ∃ x, r = .ok x ∧ f x = .ok y := by
  cases r with
  | ok x => exact ⟨x, rfl, h⟩
  | error failure => cases h

section

variable {tail ts us : List Lexeme} {kind : Lexeme → Bool}

theorem Separate.of_append {taken rest : List Lexeme} (h : Separate tail rest) :
    Separate tail (taken ++ rest) :=
  fun hnil => h (List.append_eq_nil_iff.mp hnil).2

namespace Carries

theorem ok (x : α) : Carries tail kind ts (.ok (x, ts)) (.ok (x, ts ++ tail)) := by
  rintro _ _ ⟨⟩
  exact ⟨⟨[], rfl, by simp⟩, fun _ => rfl⟩

theorem fail {expected : Expected} {r' : Except Failure (α × List Lexeme)} :
    Carries tail kind ts (Grammar.fail expected us) r' := by
  rintro _ _ ⟨⟩

theorem cons {t : Lexeme} {r r' : Except Failure (α × List Lexeme)} (ht : kind t = true)
    (h : Carries tail kind ts r r') : Carries tail kind (t :: ts) r r' := by
  intro x rest hr
  obtain ⟨⟨taken, rfl, htaken⟩, hcarry⟩ := h x rest hr
  exact ⟨⟨t :: taken, rfl, List.forall_mem_cons.mpr ⟨ht, htaken⟩⟩, hcarry⟩

theorem mono {kind' : Lexeme → Bool} {r r' : Except Failure (α × List Lexeme)}
    (h : Carries tail kind ts r r') (hkind : ∀ t, kind t = true → kind' t = true) :
    Carries tail kind' ts r r' := by
  intro x rest hr
  obtain ⟨⟨taken, hts, htaken⟩, hcarry⟩ := h x rest hr
  exact ⟨⟨taken, hts, fun t ht => hkind t (htaken t ht)⟩, hcarry⟩

theorem bind {r r' : Except Failure (α × List Lexeme)}
    {f f' : α × List Lexeme → Except Failure (β × List Lexeme)} (hr : Carries tail kind ts r r')
    (hf : ∀ x rest, r = .ok (x, rest) →
      Carries tail kind rest (f (x, rest)) (f' (x, rest ++ tail))) :
    Carries tail kind ts (r >>= f) (r' >>= f') := by
  intro y last h
  obtain ⟨⟨x, rest⟩, hread, hthen⟩ := exists_of_bind_ok h
  obtain ⟨⟨taken, rfl, htaken⟩, hcarry⟩ := hr x rest hread
  obtain ⟨⟨more, rfl, hmore⟩, hcarry'⟩ := hf x rest hread y last hthen
  refine ⟨⟨taken ++ more, (List.append_assoc ..).symm, ?_⟩, fun hlast => ?_⟩
  · exact List.forall_mem_append.mpr ⟨htaken, hmore⟩
  · rw [hcarry hlast.of_append]
    exact hcarry' hlast

theorem map {r r' : Except Failure (α × List Lexeme)} {f : α → β} (h : Carries tail kind ts r r') :
    Carries tail kind ts (r.map fun (x, rest) => (f x, rest))
      (r'.map fun (x, rest) => (f x, rest)) := by
  intro y last hmap
  cases r with
  | error failure => cases hmap
  | ok result =>
    obtain ⟨x, rest⟩ := result
    cases hmap
    obtain ⟨htaken, hcarry⟩ := h x _ rfl
    refine ⟨htaken, fun hlast => ?_⟩
    rw [hcarry hlast]
    rfl

end Carries

theorem one_eq_ok {expected : Expected} {meaning : Lexeme → Option α} {x : α} {rest : List Lexeme}
    (h : one expected meaning ts = .ok (x, rest)) : ∃ t, ts = t :: rest ∧ meaning t = some x := by
  cases ts with
  | nil => cases h
  | cons t ts =>
    simp only [one] at h
    split at h <;> cases h
    exact ⟨t, rfl, ‹_›⟩

theorem carries_one {expected : Expected} {meaning : Lexeme → Option α}
    (hkind : ∀ t x, meaning t = some x → kind t = true) (ts : List Lexeme) :
    Carries tail kind ts (one expected meaning ts) (one expected meaning (ts ++ tail)) := by
  intro x rest h
  obtain ⟨t, rfl, hx⟩ := one_eq_ok h
  refine ⟨⟨[t], rfl, by simpa using hkind t x hx⟩, fun _ => ?_⟩
  simp only [one, List.cons_append, hx]

theorem carries_mark {expected : Expected} {wanted : Mark} (hkind : kind (.mark wanted) = true)
    (ts : List Lexeme) :
    Carries tail kind ts (mark expected wanted ts) (mark expected wanted (ts ++ tail)) := by
  refine carries_one (fun t x hx => ?_) ts
  split at hx
  · split at hx <;> cases hx
    rename_i hwanted
    exact hwanted ▸ hkind
  · cases hx

-- ---------------------------------------------------------------------------
-- Lists
-- ---------------------------------------------------------------------------

/-- No item comes next: there is no comma, or no item starts after it. -/
def NoItemNext (starts : List Lexeme → Bool) (ts : List Lexeme) : Prop :=
  ∀ us, ts = .mark .comma :: us → starts us = false

variable {item : Reader α} {starts : List Lexeme → Bool}

theorem moreItems_noItemNext (h : NoItemNext starts ts) (bound : Nat) :
    moreItems item starts bound ts = .ok ([], ts) := by
  unfold moreItems
  split
  · rw [if_neg (by simp [h _ rfl])]
  · rfl

/-- A list ends where no item comes next, and it goes on in the same way if none comes next there
with the tail. The bounds only have to be large enough. -/
theorem moreItems_append {bound bound' : Nat}
    (hitem : ∀ before us, ts = before ++ .mark .comma :: us →
      Carries tail kind us (item us) (item (us ++ tail)))
    (hcomma : kind (.mark .comma) = true)
    (hstarts : ∀ us, starts us = true → starts (us ++ tail) = true)
    (hbound : ts.length ≤ bound) (hbound' : bound ≤ bound') {xs : List α} {rest : List Lexeme}
    (h : moreItems item starts bound ts = .ok (xs, rest)) :
    (∃ taken, ts = taken ++ rest ∧ ∀ t ∈ taken, kind t = true) ∧ NoItemNext starts rest ∧
      (NoItemNext starts (rest ++ tail) → Separate tail rest →
        moreItems item starts bound' (ts ++ tail) = .ok (xs, rest ++ tail)) := by
  induction bound generalizing ts bound' xs rest with
  | zero =>
    obtain rfl := List.eq_nil_of_length_eq_zero (Nat.le_zero.mp hbound)
    cases h
    exact ⟨⟨[], rfl, by simp⟩, by simp [NoItemNext], fun hend _ => moreItems_noItemNext hend bound'⟩
  | succ bound ih =>
    unfold moreItems at h
    split at h
    · rename_i us hsucc
      cases hsucc
      split at h
      · rename_i hus
        obtain ⟨⟨x, mid⟩, hread, h⟩ := exists_of_bind_ok h
        obtain ⟨⟨xs, last⟩, hmore, h⟩ := exists_of_bind_ok h
        cases h
        obtain ⟨⟨taken, rfl, htaken⟩, hcarry⟩ := hitem [] us rfl x mid hread
        obtain ⟨bound', rfl⟩ := Nat.exists_eq_add_one_of_ne_zero (Nat.ne_zero_of_lt hbound')
        have hlength : mid.length ≤ bound :=
          Nat.le_trans (List.suffix_append taken mid).length_le (Nat.le_of_succ_le_succ hbound)
        obtain ⟨⟨taken', rfl, htaken'⟩, hend, hcarry'⟩ := ih
          (fun before us hmid => hitem (.mark .comma :: (taken ++ before)) us (by simp [hmid]))
          hlength (Nat.le_of_succ_le_succ hbound') hmore
        refine ⟨⟨.mark .comma :: (taken ++ taken'), by simp, ?_⟩, hend, fun hnone hseparate => ?_⟩
        · exact List.forall_mem_cons.mpr ⟨hcomma, List.forall_mem_append.mpr ⟨htaken, htaken'⟩⟩
        · rw [List.cons_append, moreItems, if_pos (hstarts _ hus), hcarry hseparate.of_append]
          simp only [ok_bind, hcarry' hnone hseparate]
          rfl
      · cases h
        rename_i hus
        refine ⟨⟨[], rfl, by simp⟩, ?_, fun hnone _ => moreItems_noItemNext hnone bound'⟩
        rintro _ ⟨⟩
        exact Bool.eq_false_iff.mpr hus
    · cases h
      rename_i hne
      refine ⟨⟨[], rfl, by simp⟩, ?_, fun hnone _ => moreItems_noItemNext hnone bound'⟩
      rintro us rfl
      exact absurd rfl (hne bound us rfl)

theorem noItemNext_append (hstarts : ∀ u us, starts (u :: us ++ tail) = starts (u :: us))
    {rest : List Lexeme} (hend : NoItemNext starts rest) (hseparate : Separate tail rest)
    (hlast : rest = [.mark .comma] → starts tail = false) : NoItemNext starts (rest ++ tail) := by
  intro us hus
  match rest with
  | [] =>
    rw [List.nil_append] at hus
    exact absurd (congrArg List.head? hus) (hseparate rfl)
  | [u] =>
    cases hus
    exact hlast rfl
  | u :: v :: rest =>
    cases hus
    exact (hstarts v rest).trans (hend _ rfl)

theorem items_append
    (hfirst : Carries tail kind ts (item ts) (item (ts ++ tail)))
    (hnext : ∀ before us, ts = before ++ .mark .comma :: us →
      Carries tail kind us (item us) (item (us ++ tail)))
    (hcomma : kind (.mark .comma) = true)
    (hstarts : ∀ us, starts us = true → starts (us ++ tail) = true)
    {xs : List α} {rest : List Lexeme} (h : items item starts ts = .ok (xs, rest)) :
    (∃ taken, ts = taken ++ rest ∧ ∀ t ∈ taken, kind t = true) ∧ NoItemNext starts rest ∧
      (NoItemNext starts (rest ++ tail) → Separate tail rest →
        items item starts (ts ++ tail) = .ok (xs, rest ++ tail)) := by
  obtain ⟨⟨x, mid⟩, hread, h⟩ := exists_of_bind_ok h
  obtain ⟨⟨xs, last⟩, hmore, h⟩ := exists_of_bind_ok h
  cases h
  obtain ⟨⟨taken, rfl, htaken⟩, hcarry⟩ := hfirst x mid hread
  have hlength : mid.length ≤ (mid ++ tail).length := (List.prefix_append mid tail).length_le
  obtain ⟨⟨taken', rfl, htaken'⟩, hend, hcarry'⟩ := moreItems_append
    (fun before us hmid => hnext (taken ++ before) us (by simp [hmid])) hcomma hstarts
    (Nat.le_refl _)
    hlength hmore
  refine ⟨⟨taken ++ taken', (List.append_assoc ..).symm, ?_⟩, hend, fun hnone hseparate => ?_⟩
  · exact List.forall_mem_append.mpr ⟨htaken, htaken'⟩
  · rw [items, hcarry hseparate.of_append]
    simp only [ok_bind, hcarry' hnone hseparate]
    rfl

theorem carries_items (hfirst : Carries tail kind ts (item ts) (item (ts ++ tail)))
    (hnext : ∀ before us, ts = before ++ .mark .comma :: us →
      Carries tail kind us (item us) (item (us ++ tail)))
    (hcomma : kind (.mark .comma) = true) (hstarts : ∀ us, starts (us ++ tail) = starts us) :
    Carries tail kind ts (items item starts ts) (items item starts (ts ++ tail)) := by
  intro xs rest h
  obtain ⟨htaken, hend, hcarry⟩ :=
    items_append hfirst hnext hcomma (fun us hus => (hstarts us).trans hus) h
  refine ⟨htaken, fun hseparate => ?_⟩
  refine hcarry (noItemNext_append (fun u us => hstarts _) hend hseparate ?_) hseparate
  rintro rfl
  exact (hstarts []).trans (hend [] rfl)

theorem carries_optionalItems (hfirst : Carries tail kind ts (item ts) (item (ts ++ tail)))
    (hnext : ∀ before us, ts = before ++ .mark .comma :: us →
      Carries tail kind us (item us) (item (us ++ tail)))
    (hcomma : kind (.mark .comma) = true) (hstarts : ∀ us, starts (us ++ tail) = starts us) :
    Carries tail kind ts (optionalItems item starts ts)
      (optionalItems item starts (ts ++ tail)) := by
  unfold optionalItems
  rw [hstarts]
  split
  · exact carries_items hfirst hnext hcomma hstarts
  · exact .ok _

end

end OpeningTimes.Grammar

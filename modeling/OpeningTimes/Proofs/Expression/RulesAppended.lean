import OpeningTimes.Proofs.Expression.DaysAppended
import OpeningTimes.Proofs.Expression.RulesSpelled

/-!
# Rules with others after them

Rules are read as before where more of them come after a separator, and then those are read.
-/

namespace OpeningTimes.Grammar

-- ---------------------------------------------------------------------------
-- Spans of time
-- ---------------------------------------------------------------------------

section

variable {tail : List Lexeme}

theorem carries_clockTime (lastHour : Nat) (ts : List Lexeme) :
    Carries tail Lexeme.isTime ts (clockTime lastHour ts) (clockTime lastHour (ts ++ tail)) := by
  refine carries_one (fun u m hm => ?_) ts
  split at hm
  · rfl
  · cases hm

theorem carries_sunEvent (ts : List Lexeme) :
    Carries tail Lexeme.isTime ts (sunEvent ts) (sunEvent (ts ++ tail)) := by
  refine carries_one (fun u event hevent => ?_) ts
  split at hevent
  · rfl
  · cases hevent

theorem carries_sign (ts : List Lexeme) :
    Carries tail Lexeme.isTime ts (sign ts) (sign (ts ++ tail)) := by
  refine carries_one (fun u factor hfactor => ?_) ts
  split at hfactor
  · rfl
  · rfl
  · cases hfactor

theorem carries_shiftedEvent (ts : List Lexeme) :
    Carries tail Lexeme.isTime ts (shiftedEvent ts) (shiftedEvent (ts ++ tail)) := by
  refine (carries_sunEvent ts).bind fun event rest _ => ?_
  refine (carries_sign rest).bind fun factor rest _ => ?_
  refine (carries_clockTime 24 rest).bind fun minutes rest _ => ?_
  exact (carries_mark (rfl) rest).bind fun _ rest _ => .ok _

end

theorem isBreak_separator (layering : Layering) :
    (Lexeme.mark layering.separator).isBreak = true := by
  cases layering <;> rfl

section

variable {t : Lexeme} {T : List Lexeme} (ht : t.isBreak = true)
include ht

theorem carries_timePoint (lastHour : Nat) (ts : List Lexeme) :
    Carries (t :: T) Lexeme.isTime ts (timePoint lastHour ts)
      (timePoint lastHour (ts ++ t :: T)) := by
  fun_cases timePoint lastHour ts
  case case1 event ts => exact .cons rfl (.ok _)
  case case2 ts => exact .cons rfl (carries_shiftedEvent ts)
  case case3 hsolar hparen =>
    have hsolar (event : SunEvent) := first_append ht (T := T) (hsolar event) rfl
    rw [timePoint.eq_3 _ _ hsolar (first_append ht hparen rfl)]
    exact (carries_clockTime lastHour ts).map

theorem carries_timeRange (ts : List Lexeme) :
    Carries (t :: T) Lexeme.isTime ts (timeRange ts) (timeRange (ts ++ t :: T)) := by
  refine (carries_timePoint ht 24 ts).bind fun start rest _ => ?_
  simp only
  split
  · exact .cons rfl (.ok _)
  · rename_i hplus
    split
    · exact absurd ‹_› (first_append ht hplus rfl _)
    · refine (carries_mark (rfl) rest).bind fun _ rest _ => ?_
      refine (carries_timePoint ht 48 rest).bind fun stop rest _ => ?_
      simp only
      split
      · exact .cons rfl (.ok _)
      · rename_i hplus
        split
        · exact absurd ‹_› (first_append ht hplus rfl _)
        · exact .ok _

theorem carries_optionalTimes (ts : List Lexeme) : Carries (t :: T) Lexeme.isTime ts
    (optionalItems timeRange startsTime ts) (optionalItems timeRange startsTime (ts ++ t :: T)) :=
  carries_optionalItems (carries_timeRange ht ts) (fun _ us _ => carries_timeRange ht us) rfl
    (startsTime_append ht)

theorem stated_append (ts : List Lexeme) :
    stated (ts ++ t :: T) = ((stated ts).1, (stated ts).2 ++ t :: T) := by
  fun_cases stated ts
  case case5 hopened hclosed hoff hunknown =>
    rw [stated.eq_5 _ (first_append ht hopened rfl) (first_append ht hclosed rfl)
      (first_append ht hoff rfl) (first_append ht hunknown rfl)]
  all_goals rfl

theorem comment_append (ts : List Lexeme) :
    comment (ts ++ t :: T) = ((comment ts).1, (comment ts).2 ++ t :: T) := by
  fun_cases comment ts
  case case1 => rfl
  case case2 hcomment =>
    have hcomment (text : String) := first_append ht (T := T) (hcomment text) rfl
    rw [comment.eq_2 _ hcomment]

end

/-- A mark between rules never makes 24/7 of what comes before it. -/
theorem carries_times (layering : Layering) (T ts : List Lexeme) :
    Carries (.mark layering.separator :: T) Lexeme.selects ts (times ts)
      (times (ts ++ .mark layering.separator :: T)) := by
  have ht := isBreak_separator layering
  fun_cases times ts
  case case1 width width' ts => exact .cons rfl (.cons rfl (.cons rfl (.ok _)))
  case case2 hallDay =>
    rw [times.eq_2]
    · exact (carries_optionalTimes ht ts).mono fun _ => Lexeme.selects_of_isTime
    · intro width width' us heq
      match ts with
      | [] => cases layering <;> cases heq
      | [u] => cases layering <;> cases heq
      | [u, v] => cases layering <;> cases heq
      | u :: v :: w :: ts =>
        cases heq
        exact hallDay width width' ts rfl

-- ---------------------------------------------------------------------------
-- Rules
-- ---------------------------------------------------------------------------

/-- Some lexemes end with a comment or with a word that says what holds. -/
def EndsStated (ts : List Lexeme) : Prop :=
  ∃ t ∈ ts.getLast?, t.isStatement = true

theorem separate_of_endsStated {layering : Layering} {ts taken rest T : List Lexeme}
    (hts : ts = taken ++ rest) (hselects : ∀ u ∈ taken, u.selects = true)
    (hadd : layering = .add → EndsStated ts) : Separate (.mark layering.separator :: T) rest := by
  rintro rfl hcomma
  cases layering with
  | add =>
    obtain ⟨u, hu, hstatement⟩ := hadd rfl
    rw [hts, List.append_nil] at hu
    have hu' := hselects u (List.mem_of_mem_getLast? hu)
    rw [Lexeme.selects, hstatement] at hu'
    cases hu'
  | replace => cases hcomma
  | fallback => cases hcomma

/-- What stands after the times says what holds, and a comment alone leaves that open. -/
theorem rule_eq_ok_iff {layering : Layering} {start rest : List Lexeme} {r : Rule} :
    rule layering start = .ok (r, rest) ↔ ∃ years calendar weeks days ts ranges last,
      dates start = .ok ((years, calendar, weeks, days), ts) ∧ times ts = .ok (ranges, last) ∧
      r = ⟨years, calendar, weeks, days, ranges, (stated last).1.getD (impliedState
        ((comment (stated last).2).1.isSome && (stated last).2.length == start.length)),
        (comment (stated last).2).1, layering⟩ ∧
      rest = (comment (stated last).2).2 ∧ rest.length < start.length := by
  rw [rule_eq]
  constructor
  · intro h
    obtain ⟨⟨⟨years, calendar, weeks, days⟩, ts⟩, hdates, h⟩ := exists_of_bind_ok h
    obtain ⟨⟨ranges, last⟩, htimes, h⟩ := exists_of_bind_ok h
    simp only at h
    split at h <;> cases h
    exact ⟨years, calendar, weeks, days, ts, ranges, last, hdates, htimes, rfl, rfl, ‹_›⟩
  · rintro ⟨years, calendar, weeks, days, ts, ranges, last, hdates, htimes, rfl, rfl, hlength⟩
    simp only [hdates, ok_bind, htimes, if_pos hlength]
    rfl

theorem rule_layering {layering : Layering} {ts rest : List Lexeme} {r : Rule}
    (h : rule layering ts = .ok (r, rest)) (other : Layering) :
    rule other ts = .ok ({ r with layering := other }, rest) := by
  obtain ⟨years, calendar, weeks, days, mid, ranges, last, hdates, htimes, rfl, hrest⟩ :=
    rule_eq_ok_iff.mp h
  exact rule_eq_ok_iff.mpr
    ⟨years, calendar, weeks, days, mid, ranges, last, hdates, htimes, rfl, hrest⟩

theorem rule_append {layering next : Layering} {ts rest : List Lexeme} {r : Rule} (T : List Lexeme)
    (hadd : next = .add → EndsStated ts) (h : rule layering ts = .ok (r, rest)) :
    rest <:+ ts ∧
      rule layering (ts ++ .mark next.separator :: T) =
        .ok (r, rest ++ .mark next.separator :: T) := by
  have ht := isBreak_separator next
  obtain ⟨years, calendar, weeks, days, mid, ranges, last, hdates, htimes, rfl, rfl, hlength⟩ :=
    rule_eq_ok_iff.mp h
  obtain ⟨⟨taken, hts, hselects⟩, hcarry⟩ := dates_append ht (T := T) (.inl rfl) hdates
  obtain ⟨⟨taken', hmid, hselects'⟩, hcarry'⟩ := carries_times next T mid ranges last htimes
  have hall : ts = (taken ++ taken') ++ last := by rw [hts, hmid, List.append_assoc]
  have hseparate : Separate (.mark next.separator :: T) last :=
    separate_of_endsStated hall (List.forall_mem_append.mpr ⟨hselects, hselects'⟩) hadd
  have hseparate' : Separate (.mark next.separator :: T) mid := hmid ▸ hseparate.of_append
  refine ⟨(comment_suffix _).trans ((stated_suffix _).trans ⟨_, hall.symm⟩), rule_eq_ok_iff.mpr ?_⟩
  refine ⟨years, calendar, weeks, days, mid ++ .mark next.separator :: T, ranges,
    last ++ .mark next.separator :: T, hcarry hseparate' fun _ => rfl, hcarry' hseparate, ?_⟩
  simp only [stated_append ht, comment_append ht, List.length_append,
    Nat.add_lt_add_iff_right, hlength, Nat.add_right_cancel_iff, beq_eq_decide, and_self]

-- ---------------------------------------------------------------------------
-- Lists of rules
-- ---------------------------------------------------------------------------

theorem ne_nil_of_rulesUpTo {bound : Nat} {layering : Layering} {ts : List Lexeme} {rs : List Rule}
    (h : rulesUpTo bound layering ts = .ok rs) : ts ≠ [] := by
  rintro rfl
  cases bound with
  | zero => cases h
  | succ bound =>
    obtain ⟨⟨first, rest⟩, hrule, -⟩ := exists_of_bind_ok h
    obtain ⟨_, _, _, _, _, _, _, -, -, -, -, hlength⟩ := rule_eq_ok_iff.mp hrule
    exact absurd hlength (Nat.not_lt_zero _)

theorem rulesUpTo_succ_eq_ok_iff {bound : Nat} {layering : Layering} {ts : List Lexeme}
    {rs : List Rule} : rulesUpTo (bound + 1) layering ts = .ok rs ↔
      ∃ first rest, rule layering ts = .ok (first, rest) ∧
        (rs = [first] ∧ (rest = [] ∨ rest = [.mark .semicolon]) ∨
          ∃ next more others, rest = .mark (Layering.separator next) :: more ∧ more ≠ [] ∧
            rulesUpTo bound next more = .ok others ∧ rs = first :: others) := by
  constructor
  · intro h
    obtain ⟨⟨first, rest⟩, hrule, h⟩ := exists_of_bind_ok h
    refine ⟨first, rest, hrule, ?_⟩
    simp only at h
    split at h
    · cases h
      exact .inl ⟨rfl, .inl rfl⟩
    · cases h
      exact .inl ⟨rfl, .inr rfl⟩
    · obtain ⟨others, hmore, h⟩ := exists_of_bind_ok h
      cases h
      exact .inr ⟨.replace, _, others, rfl, ne_nil_of_rulesUpTo hmore, hmore, rfl⟩
    · obtain ⟨others, hmore, h⟩ := exists_of_bind_ok h
      cases h
      exact .inr ⟨.add, _, others, rfl, ne_nil_of_rulesUpTo hmore, hmore, rfl⟩
    · obtain ⟨others, hmore, h⟩ := exists_of_bind_ok h
      cases h
      exact .inr ⟨.fallback, _, others, rfl, ne_nil_of_rulesUpTo hmore, hmore, rfl⟩
    · cases h
  · rintro ⟨first, rest, hrule, ⟨rfl, rfl | rfl⟩ | ⟨next, more, others, rfl, hne, hmore, rfl⟩⟩
    · simp only [rulesUpTo, hrule, ok_bind]
      rfl
    · simp only [rulesUpTo, hrule, ok_bind]
      rfl
    · cases more with
      | nil => exact absurd rfl hne
      | cons t more =>
        cases next <;>
          · simp only [rulesUpTo, hrule, ok_bind, Layering.separator, hmore]
            rfl

theorem rulesUpTo_ne_nil {bound : Nat} {layering : Layering} {ts : List Lexeme} :
    rulesUpTo bound layering ts ≠ .ok [] := by
  intro h
  cases bound with
  | zero => cases h
  | succ bound =>
    obtain ⟨first, rest, -, ⟨hrs, -⟩ | ⟨_, _, _, -, -, -, hrs⟩⟩ := rulesUpTo_succ_eq_ok_iff.mp h
    · cases hrs
    · cases hrs

theorem rulesUpTo_mono {bound bound' : Nat} (hbound : bound ≤ bound') {layering : Layering}
    {ts : List Lexeme} {rs : List Rule} (h : rulesUpTo bound layering ts = .ok rs) :
    rulesUpTo bound' layering ts = .ok rs := by
  induction bound generalizing bound' layering ts rs with
  | zero => cases h
  | succ bound ih =>
    obtain ⟨bound', rfl⟩ := Nat.exists_eq_add_one_of_ne_zero (Nat.ne_zero_of_lt hbound)
    obtain ⟨first, rest, hrule, hone | ⟨next, more, others, hrest, hne, hmore, hrs⟩⟩ :=
      rulesUpTo_succ_eq_ok_iff.mp h
    · exact rulesUpTo_succ_eq_ok_iff.mpr ⟨first, rest, hrule, .inl hone⟩
    · have hmore' := ih (Nat.le_of_succ_le_succ hbound) hmore
      exact rulesUpTo_succ_eq_ok_iff.mpr
        ⟨first, rest, hrule, .inr ⟨next, more, others, hrest, hne, hmore', hrs⟩⟩

/-- How the first rule goes with those before it makes no difference to what is read. -/
theorem rulesUpTo_layering {bound : Nat} {layering : Layering} {ts : List Lexeme} {rs : List Rule}
    (h : rulesUpTo bound layering ts = .ok rs) (other : Layering) :
    rulesUpTo bound other ts = .ok (rs.modifyHead fun r => { r with layering := other }) := by
  cases bound with
  | zero => cases h
  | succ bound =>
    obtain ⟨first, rest, hrule, ⟨rfl, hrest⟩ | ⟨next, more, others, hrest, hne, hmore, rfl⟩⟩ :=
      rulesUpTo_succ_eq_ok_iff.mp h
    · exact rulesUpTo_succ_eq_ok_iff.mpr ⟨_, rest, rule_layering hrule other, .inl ⟨rfl, hrest⟩⟩
    · exact rulesUpTo_succ_eq_ok_iff.mpr
        ⟨_, rest, rule_layering hrule other, .inr ⟨next, more, others, hrest, hne, hmore, rfl⟩⟩

theorem rulesUpTo_append {bound bound' : Nat} {layering next : Layering} {ts us : List Lexeme}
    {rs others : List Rule} (h : rulesUpTo bound layering ts = .ok rs)
    (hlast : ts.getLast? ≠ some (.mark .semicolon)) (hadd : next = .add → EndsStated ts)
    (hus : rulesUpTo bound' next us = .ok others) :
    rulesUpTo (bound + bound') layering (ts ++ .mark next.separator :: us) =
      .ok (rs ++ others) := by
  induction bound generalizing layering ts rs with
  | zero => cases h
  | succ bound ih =>
    rw [Nat.succ_add]
    obtain ⟨first, rest, hrule, ⟨rfl, hrest⟩ | ⟨between, more, found, rfl, hne, hmore, rfl⟩⟩ :=
      rulesUpTo_succ_eq_ok_iff.mp h
    · obtain ⟨hsuffix, hcarry⟩ := rule_append us hadd hrule
      obtain rfl : rest = [] := by
        refine hrest.resolve_right ?_
        rintro rfl
        obtain ⟨taken, rfl⟩ := hsuffix
        exact hlast List.getLast?_concat
      exact rulesUpTo_succ_eq_ok_iff.mpr ⟨first, _, hcarry, .inr ⟨next, us, others, rfl,
        ne_nil_of_rulesUpTo hus, rulesUpTo_mono (Nat.le_add_left ..) hus, rfl⟩⟩
    · obtain ⟨⟨taken, rfl⟩, hcarry⟩ := rule_append us hadd hrule
      have hend : (taken ++ .mark between.separator :: more).getLast? = more.getLast? := by
        cases more with
        | nil => exact absurd rfl hne
        | cons t more =>
          rw [List.getLast?_append, List.getLast?_cons_cons, List.getLast?_eq_some_getLast hne,
            Option.some_or]
      rw [EndsStated, hend] at hadd
      rw [hend] at hlast
      have hmore' := ih hmore hlast hadd
      refine rulesUpTo_succ_eq_ok_iff.mpr
        ⟨first, _, hcarry, .inr ⟨between, _, _, rfl, ?_, hmore', rfl⟩⟩
      simp

theorem rules_append {next : Layering} {ts us : List Lexeme} {rs others : List Rule}
    (h : rules ts = .ok rs) (hlast : ts.getLast? ≠ some (.mark .semicolon))
    (hadd : next = .add → EndsStated ts)
    (hus : rules us = .ok others) : rules (ts ++ .mark next.separator :: us)
      = .ok (rs ++ others.modifyHead fun r => { r with layering := next }) := by
  have happend := rulesUpTo_append h hlast hadd (rulesUpTo_layering hus next)
  have hlength : (ts ++ .mark next.separator :: us).length + 1 =
      (ts.length + 1) + (us.length + 1) := by
    simp only [List.length_append, List.length_cons]
    omega
  rw [rules, hlength]
  exact happend

end OpeningTimes.Grammar

import OpeningTimes.Proofs.Expression.SpanMinutes
import OpeningTimes.Proofs.Schedule.DayTiling

/-!
# What a day says, minute by minute

The rules of a date decide about a minute without any painting: of those in force the last span that
holds the minute counts, and what the day before carries over goes before the day's own. The blocks
of the day say just this.
-/

namespace OpeningTimes

-- ---------------------------------------------------------------------------
-- The blocks of a rule
-- ---------------------------------------------------------------------------

theorem Rule.blocks_sound {r : Rule} (h : r.WellFormed) (c : Context) :
    ∀ b ∈ r.blocks c, b.Sound ∧ b.stop ≤ 2880 := by
  intro b hb
  obtain ⟨span, hspan, rfl⟩ := List.mem_map.mp hb
  unfold spans at hspan
  split at hspan
  · obtain rfl := List.mem_singleton.mp hspan
    simp [Block.Sound, MinuteSpan.wholeDay]
  · obtain ⟨range, hrange, rfl⟩ := List.mem_map.mp hspan
    exact TimeRange.minutes_bounds (h.times range hrange) c

-- ---------------------------------------------------------------------------
-- The rules in force
-- ---------------------------------------------------------------------------

namespace Rule

/-- A fallback does not hold after another rule. -/
def dropFallbacks : List Rule → List Rule
  | [] => []
  | r :: rs => r :: rs.filter (·.layering != .fallback)

/-- The last rule that is not added to those before it, with those that are added to it. -/
def sinceReplaced : List Rule → List Rule
  | [] => []
  | r :: rs => if rs.any (·.layering != .add) then sinceReplaced rs else r :: rs

theorem dropFallbacks_concat (rs : List Rule) (r : Rule) :
    dropFallbacks (rs ++ [r]) =
      if r.layering = .fallback ∧ rs ≠ [] then dropFallbacks rs else dropFallbacks rs ++ [r] := by
  cases rs with
  | nil => simp [dropFallbacks]
  | cons a as =>
    by_cases hr : r.layering = .fallback <;> simp [dropFallbacks, List.filter_append, hr]

theorem sinceReplaced_concat (rs : List Rule) (r : Rule) :
    sinceReplaced (rs ++ [r]) = if r.layering = .add then sinceReplaced rs ++ [r] else [r] := by
  induction rs with
  | nil => simp [sinceReplaced]
  | cons a as ih =>
    simp only [List.cons_append, sinceReplaced, ih, List.any_append]
    by_cases hr : r.layering = .add
    · simp only [hr, List.any_cons, List.any_nil, bne_self_eq_false, Bool.or_false, if_true]
      split <;> rfl
    · simp [hr]

/-- The rules that say something of a date. -/
def inForce (c : Context) (d : Date) (rules : List Rule) : List Rule :=
  sinceReplaced (dropFallbacks (rules.filter (·.covers c d)))

theorem inForce_concat_of_not_covers {c : Context} {d : Date} {r : Rule} (rs : List Rule)
    (h : r.covers c d = false) : inForce c d (rs ++ [r]) = inForce c d rs := by
  simp [inForce, List.filter_append, h]

theorem inForce_concat {c : Context} {d : Date} {r : Rule} {rs : List Rule}
    (h : r.covers c d = true) : inForce c d (rs ++ [r]) =
      if r.layering = .fallback ∧ rs.any (·.covers c d) then inForce c d rs
      else if r.layering = .add then inForce c d rs ++ [r] else [r] := by
  have hfilter : (rs ++ [r]).filter (·.covers c d) = rs.filter (·.covers c d) ++ [r] := by
    simp [List.filter_append, h]
  have hne : rs.filter (·.covers c d) ≠ [] ↔ rs.any (·.covers c d) = true := by
    simp [List.filter_eq_nil_iff]
  simp only [inForce, hfilter, dropFallbacks_concat, hne]
  split
  · rfl
  · rw [sinceReplaced_concat]

theorem mem_of_mem_inForce {c : Context} {d : Date} {r : Rule} {rules : List Rule}
    (h : r ∈ inForce c d rules) : r ∈ rules := by
  induction rules using List.reverseRecOn with
  | nil => simp [inForce, dropFallbacks, sinceReplaced] at h
  | append_singleton rs a ih =>
    rw [List.mem_append, List.mem_singleton]
    by_cases ha : a.covers c d
    · rw [inForce_concat ha] at h
      split at h
      · exact .inl (ih h)
      · split at h
        · rcases List.mem_append.mp h with h | h
          · exact .inl (ih h)
          · exact .inr (List.mem_singleton.mp h)
        · exact .inr (List.mem_singleton.mp h)
    · rw [inForce_concat_of_not_covers rs (by simpa using ha)] at h
      exact .inl (ih h)

end Rule

/-- The build has seen a rule that covers the date as soon as there is one, and its layer is that of
the rules in force among those it has seen. -/
theorem foldl_layerBuild (c : Context) (d : Date) (rules : List Rule) :
    rules.foldl (LayerBuild.add c d) {} = ⟨rules.any (·.covers c d),
      Layer.putAll [] ((Rule.inForce c d rules).flatMap (·.blocks c))⟩ := by
  induction rules using List.reverseRecOn with
  | nil => rfl
  | append_singleton rs r ih =>
    rw [List.foldl_concat, ih]
    by_cases hr : r.covers c d
    · rw [Rule.inForce_concat hr]
      by_cases hdrop : r.layering = .fallback ∧ rs.any (·.covers c d)
      · have hany : (rs ++ [r]).any (·.covers c d) = rs.any (·.covers c d) := by simp [hr, hdrop.2]
        rw [if_pos hdrop, hany]
        simp [LayerBuild.add, hdrop]
      · have hkeep : (r.layering == .fallback && rs.any (·.covers c d)) = false := by
          simpa using hdrop
        rw [if_neg hdrop]
        by_cases hadd : r.layering = .add
        · simp [LayerBuild.add, hr, hadd, Layer.putAll_append]
        · simp [LayerBuild.add, hkeep, hr, hadd]
    · have hr : r.covers c d = false := by simpa using hr
      rw [Rule.inForce_concat_of_not_covers rs hr]
      simp [LayerBuild.add, hr]

namespace Schedule

/-- All rules keep to the bounds that a text sets. -/
def WellFormed (s : Schedule) : Prop := ∀ r ∈ s.rules, r.WellFormed

/-- The blocks of a date in the order in which its rules give them. -/
def blocksOn (s : Schedule) (d : Date) : List Block :=
  (Rule.inForce s.context d s.rules).flatMap (·.blocks s.context)

/-- What the rules in force on a date say of a minute, which may lie on the day after: the last span
that holds the minute counts. -/
def ownStatus? (s : Schedule) (d : Date) (minute : Nat) : Option Status :=
  ((s.blocksOn d).reverse.find? (·.Contains minute)).bind fun b => b.status.said?

/-- What the day before says of a minute. Nothing comes before the first date. -/
def carriedStatus? (s : Schedule) (d : Date) (minute : Nat) : Option Status :=
  d.pred?.bind fun previous => s.ownStatus? previous (minute + 1440)

def minuteStatus (s : Schedule) (d : Date) (minute : Nat) : Status :=
  ((s.carriedStatus? d minute).or (s.ownStatus? d minute)).getD .closed

theorem layer_eq (s : Schedule) (d : Date) : s.layer d = Layer.putAll [] (s.blocksOn d) := by
  rw [layer, foldl_layerBuild]
  rfl

section

variable {s : Schedule} (h : s.WellFormed)
include h

theorem blocksOn_sound (d : Date) : ∀ b ∈ s.blocksOn d, b.Sound ∧ b.stop ≤ 2880 := by
  intro b hb
  obtain ⟨r, hr, hb⟩ := List.mem_flatMap.mp hb
  exact Rule.blocks_sound (h r (Rule.mem_of_mem_inForce hr)) s.context b hb

theorem layer_ordered (d : Date) : (s.layer d).Ordered := by
  rw [layer_eq]
  exact Layer.Ordered.nil.putAll fun b hb => (blocksOn_sound h d b hb).1

theorem layer_stop_le (d : Date) : ∀ b ∈ s.layer d, b.stop ≤ 2880 := by
  rw [layer_eq]
  exact Layer.forall_mem_putAll (Block.hereditary_stop_le 2880) (by simp)
    fun b hb => (blocksOn_sound h d b hb).2

theorem at?_layer (d : Date) (minute : Nat) : (s.layer d).at? minute = s.ownStatus? d minute := by
  rw [layer_eq, Layer.Ordered.nil.at?_putAll fun b hb => (blocksOn_sound h d b hb).1, ownStatus?]
  cases (s.blocksOn d).reverse.find? (·.Contains minute) <;> rfl

theorem layerBefore_ordered (d : Date) :
    (s.layerBefore d).Ordered ∧ ∀ b ∈ s.layerBefore d, b.stop ≤ 2880 := by
  unfold layerBefore
  split
  · exact ⟨layer_ordered h _, layer_stop_le h _⟩
  · exact ⟨.nil, by simp⟩

theorem at?_layerBefore (d : Date) (minute : Nat) :
    (s.layerBefore d).at? (minute + 1440) = s.carriedStatus? d minute := by
  unfold layerBefore carriedStatus?
  cases d.pred? with
  | none => rfl
  | some previous => exact at?_layer h previous _

theorem day_tiles (d : Date) : Layer.Tiles 0 (s.day d) 1440 :=
  (Layer.day_spec (layerBefore_ordered h d).1 (layer_ordered h d) (layerBefore_ordered h d).2).1

theorem day_differ (d : Date) : (s.day d).IsChain fun a b => a.status ≠ b.status :=
  (Layer.day_spec (layerBefore_ordered h d).1 (layer_ordered h d) (layerBefore_ordered h d).2).2.1

theorem at?_day (d : Date) {minute : Nat} (hm : minute < 1440) :
    Layer.at? (s.day d) minute = some (s.minuteStatus d minute) := by
  obtain ⟨hp, hend⟩ := layerBefore_ordered h d
  have hday := (Layer.day_spec hp (layer_ordered h d) hend).2.2 minute hm
  rw [at?_layerBefore h, at?_layer h] at hday
  exact hday

end

/-- The blocks of a day follow one another from its first minute to its last, neighbours differ, and
the block of a minute has the status that the rules in force give it. -/
theorem day_tiles_with_minuteStatus {raw : String} {rules : List Rule}
    (h : Rule.ofText raw = .ok rules) (c : Context) (d : Date) :
    let s : Schedule := ⟨rules, c⟩
    Layer.Tiles 0 (s.day d) 1440 ∧ (s.day d).IsChain (fun a b => a.status ≠ b.status) ∧
      ∀ minute < 1440, ∃ b ∈ s.day d, b.Contains minute ∧ b.status = s.minuteStatus d minute := by
  intro s
  have wellFormed : s.WellFormed := Rule.wellFormed_of_ofText h
  refine ⟨day_tiles wellFormed d, day_differ wellFormed d, fun minute hm => ?_⟩
  exact Layer.exists_of_at? (at?_day wellFormed d hm)

/-- Tuesday 14 May 2024 begins with what Monday carries over and says nothing of its own. -/
theorem day_tiles_with_minuteStatus_overnight :
    ∃ rules, Rule.ofText "Mo 22:00-02:00; Tu off" = .ok rules ∧
      ∃ d, Date.ofYearMonthDay? 2024 5 14 = some d ∧
        let s : Schedule := ⟨rules, {}⟩
        s.minuteStatus d 119 = ⟨.opened, false, none⟩ ∧ s.minuteStatus d 120 = .closed ∧
          Layer.Tiles 0 (s.day d) 1440 ∧ (s.day d).IsChain (fun a b => a.status ≠ b.status) ∧
          ∀ minute < 1440, ∃ b ∈ s.day d, b.Contains minute ∧
          b.status = s.minuteStatus d minute := by
  have parsed : Rule.ofText "Mo 22:00-02:00; Tu off" = .ok
      [⟨[], [], [], { weekdays := .ofDay .monday }, [⟨.fixed 1320, some (.fixed 120), false⟩],
        .opened, none, .replace⟩,
      ⟨[], [], [], { weekdays := .ofDay .tuesday }, [], .closed, none, .replace⟩] := rfl
  exact ⟨_, parsed, ⟨739385, by decide, by decide⟩, by decide +kernel, by decide +kernel,
    by decide +kernel, day_tiles_with_minuteStatus parsed {} _⟩

end Schedule

end OpeningTimes

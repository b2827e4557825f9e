import Mathlib.Data.List.Chain
import OpeningTimes.Proofs.Schedule.LayerOrder
import OpeningTimes.Schedule.Day

/-!
# A day without gaps

What lies beyond midnight is cut off and carried over; the gaps of what is left are closed. So the
blocks of a day tile it from its first minute to its last, and no two neighbours say the same.
-/

namespace OpeningTimes

-- ---------------------------------------------------------------------------
-- Cutting at midnight
-- ---------------------------------------------------------------------------

namespace Layer

theorem Ordered.withinDay_lt {layer : Layer} (h : layer.Ordered) :
    ∀ b ∈ layer.withinDay, b.start < b.stop := by
  intro b hb
  obtain ⟨a, ha, hab⟩ := List.mem_filterMap.mp hb
  obtain ⟨hlt, rfl⟩ := Block.before?_eq_some_iff.mp hab
  have := h.sound a ha
  unfold Block.Sound at this
  simp only
  omega

theorem Ordered.withinDay {layer : Layer} (h : layer.Ordered) : layer.withinDay.Ordered := by
  refine ⟨fun b hb => .inl (h.withinDay_lt b hb), ?_, ?_, fun b hb => ?_⟩
  · simp only [Layer.withinDay, List.pairwise_filterMap]
    refine h.sorted.imp fun hab a' ha' b' hb' => ?_
    obtain ⟨-, rfl⟩ := Block.before?_eq_some_iff.mp ha'
    obtain ⟨-, rfl⟩ := Block.before?_eq_some_iff.mp hb'
    exact hab
  · simp only [Layer.withinDay, List.pairwise_filterMap]
    refine h.disjoint.imp fun hab a' ha' b' hb' minute hm => hab minute ?_
    obtain ⟨-, rfl⟩ := Block.before?_eq_some_iff.mp ha'
    obtain ⟨-, rfl⟩ := Block.before?_eq_some_iff.mp hb'
    unfold Block.Contains at *
    simp only at hm
    omega
  · obtain ⟨a, ha, hab⟩ := List.mem_filterMap.mp hb
    obtain ⟨-, rfl⟩ := Block.before?_eq_some_iff.mp hab
    exact h.said a ha

theorem withinDay_le (layer : Layer) : ∀ b ∈ layer.withinDay, b.stop ≤ 1440 := by
  intro b hb
  obtain ⟨a, -, hab⟩ := List.mem_filterMap.mp hb
  obtain ⟨-, rfl⟩ := Block.before?_eq_some_iff.mp hab
  exact Nat.min_le_right ..

theorem Ordered.at?_withinDay {layer : Layer} (h : layer.Ordered) {minute : Nat}
    (hm : minute < 1440) : layer.withinDay.at? minute = layer.at? minute := by
  ext status
  rw [h.withinDay.at?_eq_some_iff, h.at?_eq_some_iff]
  constructor
  · rintro ⟨b, hb, hbm, rfl⟩
    obtain ⟨a, ha, hab⟩ := List.mem_filterMap.mp hb
    obtain ⟨-, rfl⟩ := Block.before?_eq_some_iff.mp hab
    refine ⟨a, ha, ?_, rfl⟩
    simp only [Block.Contains] at hbm ⊢
    omega
  · rintro ⟨a, ha, ham, rfl⟩
    simp only [Block.Contains] at ham
    refine ⟨_, List.mem_filterMap.mpr ⟨a, ha, Block.before?_eq_some_iff.mpr ⟨by omega, rfl⟩⟩, ?_,
      rfl⟩
    simp only [Block.Contains]
    omega

theorem mem_overflow {layer : Layer} {b : Block} :
    b ∈ layer.overflow ↔ ∃ a ∈ layer, 1440 < a.stop ∧
      b = ⟨max a.start 1440 - 1440, a.stop - 1440, a.status⟩ := by
  simp only [overflow, List.mem_map, List.mem_filterMap, Block.after?_eq_some_iff]
  constructor
  · rintro ⟨_, ⟨a, ha, hlt, rfl⟩, rfl⟩
    exact ⟨a, ha, hlt, rfl⟩
  · rintro ⟨a, ha, hlt, rfl⟩
    exact ⟨_, ⟨a, ha, hlt, rfl⟩, rfl⟩

theorem Ordered.overflow_lt {layer : Layer} (h : layer.Ordered) :
    ∀ b ∈ layer.overflow, b.start < b.stop := by
  intro b hb
  obtain ⟨a, ha, hlt, rfl⟩ := mem_overflow.mp hb
  have := h.sound a ha
  unfold Block.Sound at this
  simp only
  omega

theorem overflow_le {layer : Layer} (h : ∀ b ∈ layer, b.stop ≤ 2880) :
    ∀ b ∈ layer.overflow, b.stop ≤ 1440 := by
  intro b hb
  obtain ⟨a, ha, -, rfl⟩ := mem_overflow.mp hb
  have := h a ha
  simp only
  omega

theorem Ordered.overflow {layer : Layer} (h : layer.Ordered) : layer.overflow.Ordered := by
  refine ⟨fun b hb => .inl (h.overflow_lt b hb), ?_, ?_, fun b hb => ?_⟩
  · simp only [Layer.overflow, List.pairwise_map, List.pairwise_filterMap]
    refine h.sorted.imp fun hab a' ha' b' hb' => ?_
    obtain ⟨-, rfl⟩ := Block.after?_eq_some_iff.mp ha'
    obtain ⟨-, rfl⟩ := Block.after?_eq_some_iff.mp hb'
    simp only [Block.earlier]
    omega
  · simp only [Layer.overflow, List.pairwise_map, List.pairwise_filterMap]
    refine h.disjoint.imp fun hab a' ha' b' hb' minute hm => hab (minute + 1440) ?_
    obtain ⟨-, rfl⟩ := Block.after?_eq_some_iff.mp ha'
    obtain ⟨-, rfl⟩ := Block.after?_eq_some_iff.mp hb'
    unfold Block.Contains at *
    simp only [Block.earlier] at hm
    omega
  · obtain ⟨a, ha, -, rfl⟩ := mem_overflow.mp hb
    exact h.said a ha

theorem Ordered.at?_overflow {layer : Layer} (h : layer.Ordered) (minute : Nat) :
    layer.overflow.at? minute = layer.at? (minute + 1440) := by
  ext status
  rw [h.overflow.at?_eq_some_iff, h.at?_eq_some_iff]
  constructor
  · rintro ⟨b, hb, hbm, rfl⟩
    obtain ⟨a, ha, hlt, rfl⟩ := mem_overflow.mp hb
    refine ⟨a, ha, ?_, rfl⟩
    simp only [Block.Contains] at hbm ⊢
    omega
  · rintro ⟨a, ha, ham, rfl⟩
    simp only [Block.Contains] at ham
    refine ⟨_, mem_overflow.mpr ⟨a, ha, by omega, rfl⟩, ?_, rfl⟩
    simp only [Block.Contains]
    omega

-- ---------------------------------------------------------------------------
-- Closing the gaps
-- ---------------------------------------------------------------------------

/-- Blocks that follow one another without a gap, from one minute up to another. -/
def Tiles : Nat → List Block → Nat → Prop
  | lo, [], hi => lo = hi
  | lo, b :: bs, hi => b.start = lo ∧ b.start < b.stop ∧ Tiles b.stop bs hi

theorem Tiles.le : ∀ {bs : List Block} {lo hi : Nat}, Tiles lo bs hi → lo ≤ hi
  | [], _, _, h => Nat.le_of_eq h
  | _ :: _, _, _, ⟨rfl, hlt, h⟩ => Nat.le_trans (Nat.le_of_lt hlt) h.le

theorem Tiles.exists_contains {bs : List Block} {lo hi minute : Nat} (h : Tiles lo bs hi)
    (hlo : lo ≤ minute) (hhi : minute < hi) : ∃ b ∈ bs, b.Contains minute := by
  induction bs generalizing lo with
  | nil => simp only [Tiles] at h; omega
  | cons b bs ih =>
    obtain ⟨rfl, -, ht⟩ := h
    rcases Nat.lt_or_ge minute b.stop with hlt | hge
    · exact ⟨b, by simp, hlo, hlt⟩
    · obtain ⟨c, hc, hm⟩ := ih ht hge
      exact ⟨c, .tail _ hc, hm⟩

theorem Tiles.bounds {bs : List Block} {lo hi : Nat} (h : Tiles lo bs hi) :
    ∀ b ∈ bs, lo ≤ b.start ∧ b.start < b.stop ∧ b.stop ≤ hi := by
  induction bs generalizing lo with
  | nil => simp
  | cons b bs ih =>
    obtain ⟨rfl, hlt, ht⟩ := h
    intro c hc
    rcases List.mem_cons.mp hc with rfl | hc
    · exact ⟨Nat.le_refl _, hlt, ht.le⟩
    · have := ih ht c hc
      omega

theorem Tiles.apart {bs : List Block} {lo hi : Nat} (h : Tiles lo bs hi) :
    bs.Pairwise fun a b => a.stop ≤ b.start := by
  induction bs generalizing lo with
  | nil => exact .nil
  | cons b bs ih =>
    obtain ⟨-, -, ht⟩ := h
    exact .cons (fun c hc => (ht.bounds c hc).1) (ih ht)

theorem Tiles.at?_of_mem {bs : List Block} {lo hi minute : Nat} {b : Block} (h : Tiles lo bs hi)
    (hb : b ∈ bs) (hm : b.Contains minute) : at? bs minute = some b.status := by
  induction bs generalizing lo with
  | nil => simp at hb
  | cons c cs ih =>
    obtain ⟨rfl, -, ht⟩ := h
    rw [at?_cons]
    rcases List.mem_cons.mp hb with rfl | hb
    · rw [if_pos hm]
    · have hlo := (ht.bounds b hb).1
      rw [if_neg fun hc : c.Contains minute => absurd hc.2 (by have := hm.1; omega)]
      exact ih ht hb

/-- What is said of a minute by a layer that has nothing to say of gaps. -/
def covered (layer : Layer) (minute : Nat) : Status := (layer.at? minute).getD .closed

theorem at?_eq_none_of_lt {layer : Layer} {minute : Nat} (h : ∀ b ∈ layer, minute < b.start) :
    layer.at? minute = none := by
  unfold at?
  rw [Option.map_eq_none_iff, List.find?_eq_none]
  intro b hb hm
  have hm : b.Contains minute := by simpa using hm
  exact absurd hm.1 (Nat.not_le_of_lt (h b hb))

theorem closeGaps_tiles {layer : Layer} (apart : layer.Pairwise fun a b => a.stop ≤ b.start)
    (bounds : ∀ b ∈ layer, b.start < b.stop ∧ b.stop ≤ 1440) {minute : Nat} (hm : minute ≤ 1440)
    (later : ∀ b ∈ layer, minute ≤ b.start) : Tiles minute (closeGaps minute layer) 1440 := by
  induction layer generalizing minute with
  | nil =>
    simp only [closeGaps]
    split
    · simpa [Tiles]
    · simp only [Tiles]; omega
  | cons s rest ih =>
    obtain ⟨next, apart⟩ := List.pairwise_cons.mp apart
    obtain ⟨hlt, hle⟩ := bounds s (by simp)
    have hs := later s (by simp)
    have ht := ih apart (fun b hb => bounds b (.tail _ hb)) hle next
    simp only [closeGaps]
    split
    · exact ⟨rfl, ‹_›, rfl, hlt, ht⟩
    · exact ⟨by omega, hlt, ht⟩

theorem at?_closeGaps {layer : Layer} (apart : layer.Pairwise fun a b => a.stop ≤ b.start)
    (bounds : ∀ b ∈ layer, b.start < b.stop ∧ b.stop ≤ 1440) {minute m : Nat} (hlo : minute ≤ m)
    (hhi : m < 1440) : at? (closeGaps minute layer) m = some (layer.covered m) := by
  induction layer generalizing minute with
  | nil =>
    have : minute < 1440 := by omega
    simp [closeGaps, this, at?_cons, Block.Contains, hlo, hhi, covered]
  | cons s rest ih =>
    obtain ⟨next, apart⟩ := List.pairwise_cons.mp apart
    obtain ⟨hs, -⟩ := bounds s (by simp)
    have hrest (hlt : m < s.stop) : at? rest m = none :=
      at?_eq_none_of_lt fun b hb => Nat.lt_of_lt_of_le hlt (next b hb)
    simp only [closeGaps]
    by_cases hbefore : m < s.start
    · have hgap : minute < s.start := by omega
      have hm : (⟨minute, s.start, .closed⟩ : Block).Contains m := ⟨hlo, hbefore⟩
      have hnot : ¬ s.Contains m := fun hs => absurd hs.1 (by omega)
      simp [hgap, at?_cons, hm, covered, hnot, hrest (by omega)]
    · have tail : at? (s :: closeGaps s.stop rest) m = some (covered (s :: rest) m) := by
        by_cases hin : m < s.stop
        · have hm : s.Contains m := ⟨by omega, hin⟩
          simp [at?_cons, covered, hm]
        · have hnot : ¬ s.Contains m := fun hm => hin hm.2
          have := ih apart (fun b hb => bounds b (.tail _ hb)) (Nat.le_of_not_lt hin)
          simp [at?_cons, covered, hnot, this]
      split
      · rw [at?_cons, if_neg fun hm : Block.Contains _ m => hbefore hm.2]
        exact tail
      · exact tail

-- ---------------------------------------------------------------------------
-- Joining neighbours
-- ---------------------------------------------------------------------------

theorem Tiles.consJoined {b : Block} {bs : List Block} {lo hi : Nat} (h : Tiles lo (b :: bs) hi) :
    Tiles lo (b.consJoined bs) hi := by
  cases bs with
  | nil => exact h
  | cons c cs =>
    obtain ⟨rfl, hb, hc, hlt, ht⟩ := h
    simp only [Block.consJoined]
    split
    · exact ⟨rfl, by simp only; omega, ht⟩
    · exact ⟨rfl, hb, hc, hlt, ht⟩

theorem Tiles.at?_consJoined {b : Block} {bs : List Block} {lo hi : Nat} (h : Tiles lo (b :: bs) hi)
    (minute : Nat) : at? (b.consJoined bs) minute = at? (b :: bs) minute := by
  cases bs with
  | nil => rfl
  | cons c cs =>
    obtain ⟨-, hb, hc, hlt, -⟩ := h
    simp only [Block.consJoined]
    split
    · rename_i hjoin
      simp only [at?_cons, Block.Contains, hjoin.2]
      grind
    · rfl

theorem Tiles.differ_consJoined {b : Block} {bs : List Block} {lo hi : Nat}
    (h : Tiles lo (b :: bs) hi) (differ : bs.IsChain fun a b => a.status ≠ b.status) :
    (b.consJoined bs).IsChain fun a b => a.status ≠ b.status := by
  cases bs with
  | nil => exact .singleton _
  | cons c cs =>
    obtain ⟨-, -, hc, -⟩ := h
    simp only [Block.consJoined]
    split
    · rename_i hjoin
      exact differ.cons_of_imp fun d hd => by simpa [hjoin.2] using hd
    · rename_i hjoin
      exact .cons_cons (fun hstatus => hjoin ⟨hc.symm, hstatus⟩) differ

theorem Tiles.joined {bs : List Block} {lo hi : Nat} (h : Tiles lo bs hi) :
    Tiles lo (bs.foldr Block.consJoined []) hi ∧
      (bs.foldr Block.consJoined []).IsChain (fun a b => a.status ≠ b.status) ∧
      ∀ minute, at? (bs.foldr Block.consJoined []) minute = at? bs minute := by
  induction bs generalizing lo with
  | nil => exact ⟨h, .nil, fun _ => rfl⟩
  | cons b bs ih =>
    obtain ⟨hlo, hlt, ht⟩ := h
    obtain ⟨tiles, differ, same⟩ := ih ht
    have tiles : Tiles lo (b :: bs.foldr Block.consJoined []) hi := ⟨hlo, hlt, tiles⟩
    refine ⟨tiles.consJoined, tiles.differ_consJoined differ, fun minute => ?_⟩
    rw [List.foldr_cons, tiles.at?_consJoined, at?_cons, same, ← at?_cons]

-- ---------------------------------------------------------------------------
-- The day
-- ---------------------------------------------------------------------------

/-- What the layer of the day before carries over comes first, then what the day's own
layer says. -/
theorem at?_putAll_overflow {previous own : Layer} (hp : previous.Ordered) (ho : own.Ordered)
    {minute : Nat} (hm : minute < 1440) :
    (own.withinDay.putAll previous.overflow).at? minute =
      (previous.at? (minute + 1440)).or (own.at? minute) := by
  rw [ho.withinDay.at?_putAll hp.overflow.sound, hp.overflow.find?_reverse, ho.at?_withinDay hm,
    ← hp.at?_overflow]
  unfold Layer.at?
  cases hf : previous.overflow.find? (·.Contains minute) with
  | none => rfl
  | some b =>
    have := hp.overflow.said b (List.mem_of_find?_eq_some hf)
    simp [Status.said?, this]

/-- The blocks of a day tile it, neighbours differ, and each minute has the status of what is
carried over or else of the day's own layer, closed where neither says anything. -/
theorem day_spec {previous own : Layer} (hp : previous.Ordered) (ho : own.Ordered)
    (hend : ∀ b ∈ previous, b.stop ≤ 2880) :
    Tiles 0 (day previous own) 1440 ∧
      (day previous own).IsChain (fun a b => a.status ≠ b.status) ∧
      ∀ minute < 1440, at? (day previous own) minute =
        some (((previous.at? (minute + 1440)).or (own.at? minute)).getD .closed) := by
  have lt := forall_mem_putAll Block.hereditary_start_lt_stop ho.withinDay_lt hp.overflow_lt
  have apart := (ho.withinDay.putAll hp.overflow.sound).apart lt
  have le := forall_mem_putAll (Block.hereditary_stop_le 1440) own.withinDay_le (overflow_le hend)
  have bounds := fun b hb => And.intro (lt b hb) (le b hb)
  have tiles := closeGaps_tiles apart bounds (Nat.zero_le _) fun b _ => Nat.zero_le _
  obtain ⟨tiles, differ, same⟩ := tiles.joined
  refine ⟨tiles, differ, fun minute hm => ?_⟩
  rw [day, cover, same, at?_closeGaps apart bounds (Nat.zero_le _) hm, covered,
    at?_putAll_overflow hp ho hm]

end Layer

end OpeningTimes

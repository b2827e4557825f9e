import OpeningTimes.Schedule.Layer

/-!
# Layers minute by minute

The blocks of a layer stand in the order of their starts and have no minute in common, so that at
most one of them holds a minute, and `Layer.at?` tells what that one says. Putting a block on a
layer changes what is said of the minutes of the block and of no others; a later block wins over an
earlier one.
-/

namespace OpeningTimes

/-- What a status has to say of a minute. -/
def Status.said? (s : Status) : Option Status := if s.isGap then none else some s

-- ---------------------------------------------------------------------------
-- Blocks
-- ---------------------------------------------------------------------------

namespace Block

/-- A block holds some minute. A span from 24:00 to 00:00 alone is empty, at the end of the day. -/
def Sound (b : Block) : Prop := b.start < b.stop ∨ b.start = 1440 ∧ b.stop = 1440

theorem Sound.le {b : Block} (h : b.Sound) : b.start ≤ b.stop := by
  unfold Sound at h; omega

theorem before?_eq_some_iff {a b : Block} {minute : Nat} :
    a.before? minute = some b ↔ a.start < minute ∧ { a with stop := min a.stop minute } = b := by
  unfold before?
  split <;> rename_i hm <;> simp [hm]

theorem after?_eq_some_iff {a b : Block} {minute : Nat} :
    a.after? minute = some b ↔ minute < a.stop ∧ { a with start := max a.start minute } = b := by
  unfold after?
  split <;> rename_i hm <;> simp [hm]

theorem mem_cutFrom {s a b : Block} :
    b ∈ s.cutFrom a ↔ (a.stop ≤ s.start ∨ s.stop ≤ a.start) ∧ b = a ∨
      (s.start < a.stop ∧ a.start < s.stop) ∧
        (a.start < s.start ∧ b = { a with stop := s.start } ∨
          s.stop < a.stop ∧ b = { a with start := s.stop }) := by
  unfold cutFrom
  by_cases houtside : a.stop ≤ s.start ∨ s.stop ≤ a.start
  · have hmeets : ¬ (s.start < a.stop ∧ a.start < s.stop) := by omega
    simp [houtside, hmeets]
  · have hmeets : s.start < a.stop ∧ a.start < s.stop := by omega
    rw [if_neg houtside, List.mem_append]
    split <;> split <;> simp [*]

theorem status_of_mem_cutFrom {s a b : Block} (h : b ∈ s.cutFrom a) : b.status = a.status := by
  rcases mem_cutFrom.mp h with ⟨-, rfl⟩ | ⟨-, ⟨-, rfl⟩ | ⟨-, rfl⟩⟩ <;> rfl

theorem contains_of_mem_cutFrom {s a b : Block} {minute : Nat} (h : b ∈ s.cutFrom a)
    (hm : b.Contains minute) : a.Contains minute ∧ ¬ s.Contains minute := by
  unfold Contains at *
  rcases mem_cutFrom.mp h with ⟨houtside, rfl⟩ | ⟨hmeets, ⟨hlt, rfl⟩ | ⟨hlt, rfl⟩⟩
  · omega
  · simp only at hm
    omega
  · simp only at hm
    omega

theorem exists_mem_cutFrom {s a : Block} {minute : Nat} (ha : a.Contains minute)
    (hs : ¬ s.Contains minute) : ∃ b ∈ s.cutFrom a, b.Contains minute := by
  simp only [mem_cutFrom]
  unfold Contains at *
  by_cases houtside : a.stop ≤ s.start ∨ s.stop ≤ a.start
  · exact ⟨a, .inl ⟨houtside, rfl⟩, ha⟩
  · rcases Nat.lt_or_ge minute s.start with hlt | hge
    · exact ⟨_, .inr ⟨by omega, .inl ⟨by omega, rfl⟩⟩, ha.1, hlt⟩
    · exact ⟨_, .inr ⟨by omega, .inr ⟨by omega, rfl⟩⟩, by simp only; omega, ha.2⟩

/-- A property of blocks that the parts of a block share with it. -/
def Hereditary (P : Block → Prop) : Prop := ∀ ⦃s a b : Block⦄, P a → b ∈ s.cutFrom a → P b

theorem hereditary_sound : Hereditary Sound := by
  intro s a b ha h
  rcases mem_cutFrom.mp h with ⟨-, rfl⟩ | ⟨-, ⟨hlt, rfl⟩ | ⟨hlt, rfl⟩⟩
  · exact ha
  · exact .inl hlt
  · exact .inl hlt

theorem hereditary_stop_le (stop : Nat) : Hereditary fun b => b.stop ≤ stop := by
  intro s a b ha h
  rcases mem_cutFrom.mp h with ⟨-, rfl⟩ | ⟨⟨hlt, -⟩, ⟨-, rfl⟩ | ⟨-, rfl⟩⟩
  · exact ha
  · exact Nat.le_trans (Nat.le_of_lt hlt) ha
  · exact ha

theorem hereditary_start_lt_stop : Hereditary fun b => b.start < b.stop := by
  intro s a b ha h
  rcases mem_cutFrom.mp h with ⟨-, rfl⟩ | ⟨-, ⟨hlt, rfl⟩ | ⟨hlt, rfl⟩⟩
  · exact ha
  · exact hlt
  · exact hlt

end Block

-- ---------------------------------------------------------------------------
-- Order
-- ---------------------------------------------------------------------------

namespace Layer

/-- The blocks stand in the order of their starts, no two hold the same minute, and each has
something to say. -/
structure Ordered (layer : Layer) : Prop where
  sound : ∀ b ∈ layer, b.Sound
  sorted : layer.Pairwise fun a b => a.start ≤ b.start
  disjoint : layer.Pairwise fun a b => ∀ minute, ¬ (a.Contains minute ∧ b.Contains minute)
  said : ∀ b ∈ layer, b.status.isGap = false

theorem Ordered.nil : Ordered [] := ⟨by simp, .nil, .nil, by simp⟩

/-- Without empty ones the blocks come one after another. -/
theorem Ordered.apart {layer : Layer} (h : layer.Ordered)
    (hlasting : ∀ b ∈ layer, b.start < b.stop) :
    layer.Pairwise fun a b => a.stop ≤ b.start := by
  refine (h.sorted.and h.disjoint).imp_of_mem fun {a b} _ hb hab => ?_
  have hlasting := hlasting b hb
  have hcommon := hab.2 b.start
  unfold Block.Contains at hcommon
  omega

theorem Ordered.unique {layer : Layer} {a b : Block} {minute : Nat} (h : layer.Ordered)
    (ha : a ∈ layer) (hb : b ∈ layer) (hma : a.Contains minute) (hmb : b.Contains minute) :
    a = b := by
  let Near (a b : Block) : Prop := a.Contains minute → b.Contains minute → a = b
  have near : layer.Pairwise Near :=
    h.disjoint.imp fun hab hma hmb => absurd ⟨hma, hmb⟩ (hab minute)
  have flipped : layer.Pairwise (flip Near) :=
    h.disjoint.imp fun hab hma hmb => absurd ⟨hmb, hma⟩ (hab minute)
  exact near.forall_of_forall_of_flip (fun _ _ _ _ => rfl) flipped ha hb hma hmb

/-- What is said of a minute. -/
def at? (layer : Layer) (minute : Nat) : Option Status :=
  (layer.find? (·.Contains minute)).map Block.status

@[simp] theorem at?_nil (minute : Nat) : at? [] minute = none := rfl

theorem at?_cons (b : Block) (layer : Layer) (minute : Nat) :
    at? (b :: layer) minute = if b.Contains minute then some b.status else at? layer minute := by
  unfold at?
  rw [List.find?_cons]
  by_cases h : b.Contains minute <;> simp [h]

theorem exists_of_at? {layer : Layer} {minute : Nat} {status : Status}
    (h : layer.at? minute = some status) :
    ∃ b ∈ layer, b.Contains minute ∧ b.status = status := by
  obtain ⟨b, hb, rfl⟩ := Option.map_eq_some_iff.mp h
  exact ⟨b, List.mem_of_find?_eq_some hb, by simpa using List.find?_some hb, rfl⟩

theorem Ordered.find?_eq_some {layer : Layer} {b : Block} {minute : Nat} (h : layer.Ordered)
    (hb : b ∈ layer) (hm : b.Contains minute) :
    layer.find? (·.Contains minute) = some b := by
  cases hf : layer.find? (·.Contains minute) with
  | none => exact absurd hm (by simpa using List.find?_eq_none.mp hf b hb)
  | some c =>
    have hc : c.Contains minute := by simpa using List.find?_some hf
    rw [h.unique (List.mem_of_find?_eq_some hf) hb hc hm]

theorem Ordered.at?_eq_some_iff {layer : Layer} {minute : Nat} {status : Status}
    (h : layer.Ordered) :
    layer.at? minute = some status ↔ ∃ b ∈ layer, b.Contains minute ∧ b.status = status := by
  refine ⟨exists_of_at?, ?_⟩
  rintro ⟨b, hb, hm, rfl⟩
  simp [at?, h.find?_eq_some hb hm]

theorem Ordered.find?_reverse {layer : Layer} (h : layer.Ordered) (minute : Nat) :
    layer.reverse.find? (·.Contains minute) = layer.find? (·.Contains minute) := by
  cases hf : layer.reverse.find? (·.Contains minute) with
  | none =>
    refine (List.find?_eq_none.mpr fun b hb => ?_).symm
    exact List.find?_eq_none.mp hf b (by simpa using hb)
  | some b =>
    have hb : b ∈ layer := by simpa using List.mem_of_find?_eq_some hf
    have hm : b.Contains minute := by simpa using List.find?_some hf
    exact (h.find?_eq_some hb hm).symm

-- ---------------------------------------------------------------------------
-- The order of the starts
-- ---------------------------------------------------------------------------

theorem insertInto_append {s : Block} {earlier later : List Block}
    (hearlier : ∀ b ∈ earlier, b.start < s.start) (hlater : ∀ b ∈ later, s.start ≤ b.start) :
    s.insertInto (earlier ++ later) = earlier ++ s :: later := by
  induction earlier with
  | nil =>
    cases later with
    | nil => rfl
    | cons b bs => exact if_pos (hlater b (by simp))
  | cons b bs ih =>
    have hb := hearlier b (by simp)
    rw [List.cons_append, Block.insertInto, if_neg (by omega),
      ih fun c hc => hearlier c (.tail _ hc)]
    rfl

theorem start_le_trans (a b c : Block) (hab : decide (a.start ≤ b.start) = true)
    (hbc : decide (b.start ≤ c.start) = true) : decide (a.start ≤ c.start) = true := by
  simp only [decide_eq_true_eq] at *
  omega

theorem start_le_total (a b : Block) :
    (decide (a.start ≤ b.start) || decide (b.start ≤ a.start)) = true := by
  simp only [Bool.or_eq_true, decide_eq_true_eq]
  omega

/-- The library sorts in the same way. -/
theorem inOrder_eq_mergeSort (blocks : List Block) :
    inOrder blocks = blocks.mergeSort fun a b => a.start ≤ b.start := by
  induction blocks with
  | nil => exact List.mergeSort_nil.symm
  | cons s blocks ih =>
    obtain ⟨earlier, later, hsort, hrest, hearlier⟩ :=
      List.mergeSort_cons start_le_trans start_le_total s blocks
    have hsorted := List.pairwise_mergeSort start_le_trans start_le_total (s :: blocks)
    rw [hsort, List.pairwise_append, List.pairwise_cons] at hsorted
    rw [inOrder, List.foldr_cons, ← inOrder, ih, hrest, hsort]
    exact insertInto_append (fun b hb => by simpa using hearlier b hb)
      fun b hb => by simpa using hsorted.2.1.1 b hb

theorem inOrder_perm (blocks : List Block) : (inOrder blocks).Perm blocks := by
  rw [inOrder_eq_mergeSort]
  exact List.mergeSort_perm ..

theorem sorted_inOrder (blocks : List Block) :
    (inOrder blocks).Pairwise fun a b => a.start ≤ b.start := by
  rw [inOrder_eq_mergeSort]
  simpa using List.pairwise_mergeSort start_le_trans start_le_total blocks

-- ---------------------------------------------------------------------------
-- Putting a block on a layer
-- ---------------------------------------------------------------------------

theorem mem_put {layer : Layer} {s b : Block} :
    b ∈ layer.put s ↔ (∃ a ∈ layer, b ∈ s.cutFrom a) ∨ (s.status.isGap = false ∧ b = s) := by
  rw [put, (inOrder_perm _).mem_iff, cut, List.mem_append, List.mem_flatMap]
  cases s.status.isGap <;> simp

theorem forall_mem_put {P : Block → Prop} (hP : Block.Hereditary P) {layer : Layer} {s : Block}
    (h : ∀ a ∈ layer, P a) (hs : P s) : ∀ b ∈ layer.put s, P b := by
  intro b hb
  rcases mem_put.mp hb with ⟨a, ha, hab⟩ | ⟨-, rfl⟩
  · exact hP (h a ha) hab
  · exact hs

theorem Ordered.disjoint_put {layer : Layer} {s : Block} (h : layer.Ordered)
    (hs : s.start ≤ s.stop) :
    (layer.put s).Pairwise fun a b => ∀ minute, ¬ (a.Contains minute ∧ b.Contains minute) := by
  refine List.Pairwise.perm ?_ (inOrder_perm _).symm fun hab minute hm => hab minute hm.symm
  rw [cut, List.pairwise_append, List.pairwise_flatMap]
  refine ⟨⟨fun a _ => ?_, h.disjoint.imp fun hab a' ha' b' hb' minute hm => ?_⟩, ?_,
    fun a ha b hb minute hm => ?_⟩
  · -- the parts on either side of the block
    unfold Block.cutFrom Block.Contains
    split
    · simp
    · split <;> split <;> simp
      omega
  · exact hab minute ⟨(Block.contains_of_mem_cutFrom ha' hm.1).1,
      (Block.contains_of_mem_cutFrom hb' hm.2).1⟩
  · split <;> simp
  · obtain ⟨a', -, ha⟩ := List.mem_flatMap.mp ha
    have hb : b = s := by
      split at hb <;> simp_all
    exact (Block.contains_of_mem_cutFrom ha hm.1).2 (hb ▸ hm.2)

theorem Ordered.put {layer : Layer} {s : Block} (h : layer.Ordered) (hs : s.Sound) :
    (layer.put s).Ordered := by
  refine ⟨forall_mem_put Block.hereditary_sound h.sound hs, sorted_inOrder _, h.disjoint_put hs.le,
    fun b hb => ?_⟩
  rcases mem_put.mp hb with ⟨a, ha, hab⟩ | ⟨hs, rfl⟩
  · exact Block.status_of_mem_cutFrom hab ▸ h.said a ha
  · exact hs

/-- A block decides what is said of its own minutes. -/
theorem Ordered.at?_put {layer : Layer} {s : Block} (h : layer.Ordered) (hs : s.Sound)
    (minute : Nat) :
    (layer.put s).at? minute = if s.Contains minute then s.status.said? else layer.at? minute := by
  ext status
  rw [(h.put hs).at?_eq_some_iff]
  split
  · rename_i hm
    constructor
    · rintro ⟨b, hb, hbm, rfl⟩
      rcases mem_put.mp hb with ⟨a, -, hab⟩ | ⟨hsaid, rfl⟩
      · exact absurd hm (Block.contains_of_mem_cutFrom hab hbm).2
      · simp [Status.said?, hsaid]
    · intro hstatus
      cases hgap : s.status.isGap <;> simp only [Status.said?, hgap] at hstatus
      · exact ⟨s, mem_put.mpr (.inr ⟨hgap, rfl⟩), hm, by simpa using hstatus⟩
      · simp at hstatus
  · rename_i hm
    rw [h.at?_eq_some_iff]
    constructor
    · rintro ⟨b, hb, hbm, rfl⟩
      rcases mem_put.mp hb with ⟨a, ha, hab⟩ | ⟨-, rfl⟩
      · exact ⟨a, ha, (Block.contains_of_mem_cutFrom hab hbm).1,
          (Block.status_of_mem_cutFrom hab).symm⟩
      · exact absurd hbm hm
    · rintro ⟨a, ha, ham, rfl⟩
      obtain ⟨b, hb, hbm⟩ := Block.exists_mem_cutFrom ham hm
      exact ⟨b, mem_put.mpr (.inl ⟨a, ha, hb⟩), hbm, Block.status_of_mem_cutFrom hb⟩

theorem putAll_append (layer : Layer) (xs ys : List Block) :
    layer.putAll (xs ++ ys) = (layer.putAll xs).putAll ys :=
  List.foldl_append

theorem forall_mem_putAll {P : Block → Prop} (hP : Block.Hereditary P) {layer : Layer}
    {blocks : List Block} (h : ∀ a ∈ layer, P a) (hs : ∀ b ∈ blocks, P b) :
    ∀ b ∈ layer.putAll blocks, P b :=
  List.foldlRecOn (motive := fun layer => ∀ b ∈ layer, P b) blocks Layer.put h
    fun _ hkept b hb => forall_mem_put hP hkept (hs b hb)

theorem Ordered.putAll {layer : Layer} {blocks : List Block} (h : layer.Ordered)
    (hs : ∀ b ∈ blocks, b.Sound) : (layer.putAll blocks).Ordered :=
  List.foldlRecOn blocks Layer.put h fun _ hordered b hb => hordered.put (hs b hb)

theorem Ordered.at?_putAll {layer : Layer} {blocks : List Block} (h : layer.Ordered)
    (hs : ∀ b ∈ blocks, b.Sound) (minute : Nat) :
    (layer.putAll blocks).at? minute =
      match blocks.reverse.find? (·.Contains minute) with
      | some b => b.status.said?
      | none => layer.at? minute := by
  induction blocks generalizing layer with
  | nil => rfl
  | cons b bs ih =>
    have hb := hs b (by simp)
    have ih := ih (h.put hb) fun c hc => hs c (.tail _ hc)
    rw [List.reverse_cons, List.find?_append]
    simp only [Layer.putAll, List.foldl_cons] at ih ⊢
    rw [ih, h.at?_put hb]
    cases bs.reverse.find? (·.Contains minute) with
    | some c => rfl
    | none => by_cases hm : b.Contains minute <;> simp [hm]

end Layer

end OpeningTimes

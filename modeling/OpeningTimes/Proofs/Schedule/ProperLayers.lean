import OpeningTimes.Proofs.Schedule.DayMeaning

/-!
# Proper layers

A layer is proper if each of its blocks holds a minute and has something to say, and if the blocks
stand in the order of their starts and no two hold the same minute. A block put on a proper layer
leaves it proper, and so does any number of them in any order. Putting it there cuts from all blocks
of the layer what lies in the new one and sorts what is left together with it.
-/

namespace OpeningTimes

namespace Layer

-- ---------------------------------------------------------------------------
-- Proper and ordered layers
-- ---------------------------------------------------------------------------

structure Proper (layer : Layer) : Prop where
  lasting : ∀ b ∈ layer, b.start < b.stop
  sorted : layer.Pairwise fun a b => a.start ≤ b.start
  disjoint : layer.Pairwise fun a b => ∀ minute, ¬ (a.Contains minute ∧ b.Contains minute)
  said : ∀ b ∈ layer, b.status.isGap = false

theorem Proper.ordered {layer : Layer} (h : layer.Proper) : layer.Ordered :=
  ⟨fun b hb => .inl (h.lasting b hb), h.sorted, h.disjoint, h.said⟩

theorem Ordered.proper {layer : Layer} (h : layer.Ordered)
    (hlasting : ∀ b ∈ layer, b.start < b.stop) :
    layer.Proper :=
  ⟨hlasting, h.sorted, h.disjoint, h.said⟩

-- ---------------------------------------------------------------------------
-- Putting blocks on a proper layer
-- ---------------------------------------------------------------------------

theorem Proper.put {layer : Layer} {s : Block} (h : layer.Proper) (hs : s.start < s.stop) :
    (layer.put s).Proper :=
  (h.ordered.put (.inl hs)).proper (forall_mem_put Block.hereditary_start_lt_stop h.lasting hs)

theorem Proper.putAll {layer : Layer} {blocks : List Block} (h : layer.Proper)
    (hs : ∀ b ∈ blocks, b.start < b.stop) : (layer.putAll blocks).Proper :=
  List.foldlRecOn blocks Layer.put h fun _ hproper b hb => hproper.put (hs b hb)

/-- A block with minutes that is put on a proper layer, by cutting and sorting, leaves it proper and
decides what is said of its own minutes. Of all others is said what was said before. -/
theorem Proper.put_writes_block {layer : Layer} {s : Block} (h : layer.Proper)
    (hs : s.start < s.stop) :
    layer.put s = ((layer.cut s).mergeSort fun a b => a.start ≤ b.start) ∧ (layer.put s).Proper ∧
      ∀ minute, (layer.put s).at? minute =
        if s.Contains minute then s.status.said? else layer.at? minute :=
  ⟨inOrder_eq_mergeSort _, h.put hs, h.ordered.at?_put (.inl hs)⟩

/-- A pause splits the block that it lies in. -/
theorem put_writes_pause :
    ∃ layer : Layer, ∃ s : Block, layer.Proper ∧ s.start < s.stop ∧
      layer.put s = [⟨480, 720, ⟨.opened, false, none⟩⟩, ⟨780, 1080, ⟨.opened, false, none⟩⟩] ∧
      (layer.put s).Proper ∧ (layer.put s).at? 750 = none ∧
      (layer.put s).at? 780 = some ⟨.opened, false, none⟩ := by
  have proper : Proper [⟨480, 1080, ⟨.opened, false, none⟩⟩] :=
    ⟨by simp, by simp, by simp, by decide⟩
  obtain ⟨-, hproper, hminutes⟩ := proper.put_writes_block (s := ⟨720, 780, .closed⟩) (by decide)
  refine ⟨_, _, proper, by decide, rfl, hproper, ?_, ?_⟩
  · rw [hminutes]
    rfl
  · rw [hminutes]
    rfl

end Layer

-- ---------------------------------------------------------------------------
-- Layers of a schedule
-- ---------------------------------------------------------------------------

theorem Schedule.layer_proper {s : Schedule} {d : Date} (h : ∀ b ∈ s.blocksOn d, b.start < b.stop) :
    (s.layer d).Proper := by
  rw [layer_eq]
  exact (Layer.Ordered.nil.proper (by simp)).putAll h

end OpeningTimes

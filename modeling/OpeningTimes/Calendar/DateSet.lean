import OpeningTimes.Calendar.Date

/-!
# Finite sets of dates

A set of dates is its strictly increasing list, so that two sets with the same members are equal.
-/

namespace OpeningTimes

structure DateSet where
  dates : List Date
  sorted : dates.Pairwise (· < ·)
deriving DecidableEq

namespace DateSet

instance : EmptyCollection DateSet := ⟨⟨[], .nil⟩⟩

instance : Inhabited DateSet := ⟨∅⟩

def insertDate (d : Date) : List Date → List Date
  | [] => [d]
  | e :: es => if d < e then d :: e :: es else if d = e then e :: es else e :: insertDate d es

theorem mem_insertDate {a d : Date} {ds : List Date} :
    a ∈ insertDate d ds ↔ a = d ∨ a ∈ ds := by
  induction ds with
  | nil => simp [insertDate]
  | cons e es ih =>
    unfold insertDate
    split
    · simp
    · split
      · subst d; simp
      · simp [ih]; grind

theorem pairwise_insertDate (d : Date) {ds : List Date} (h : ds.Pairwise (· < ·)) :
    (insertDate d ds).Pairwise (· < ·) := by
  induction ds with
  | nil => simp [insertDate]
  | cons e es ih =>
    obtain ⟨below, sorted⟩ := List.pairwise_cons.mp h
    unfold insertDate
    split
    · rename_i lt
      refine List.pairwise_cons.mpr ⟨fun b hb => ?_, h⟩
      rcases List.mem_cons.mp hb with rfl | hb
      · exact lt
      · have := below b hb
        rw [Date.lt_iff] at *; omega
    · split
      · exact h
      · rename_i not_lt ne
        refine List.pairwise_cons.mpr ⟨fun b hb => ?_, ih sorted⟩
        rcases mem_insertDate.mp hb with rfl | hb
        · rw [Date.eq_iff] at ne
          rw [Date.lt_iff] at *; omega
        · exact below b hb

def insert (d : Date) (s : DateSet) : DateSet :=
  ⟨insertDate d s.dates, pairwise_insertDate d s.sorted⟩

def insertMany (s : DateSet) (ds : List Date) : DateSet :=
  ds.foldl (fun s d => s.insert d) s

def ofList (ds : List Date) : DateSet :=
  (∅ : DateSet).insertMany ds

def contains (s : DateSet) (d : Date) : Bool :=
  s.dates.contains d

def isEmpty (s : DateSet) : Bool :=
  s.dates.isEmpty

def size (s : DateSet) : Nat :=
  s.dates.length

def first? (s : DateSet) : Option Date :=
  s.dates.head?

def last? (s : DateSet) : Option Date :=
  s.dates.getLast?

theorem contains_insert (s : DateSet) (d e : Date) :
    (s.insert d).contains e = (e == d || s.contains e) := by
  rw [Bool.eq_iff_iff]
  simp [contains, insert, mem_insertDate]

end DateSet

end OpeningTimes

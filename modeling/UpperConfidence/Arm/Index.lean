import UpperConfidence.Failure

/-!
# Positions of arms

An index turns arm identifiers into positions. It is built from a list without
repeats, and the position of an arm is its place in that list. A batch of arms
may name any of them in any order, but none twice.
-/

namespace UpperConfidence

/-- The first element of a list that equals one of `seen` or an earlier element. -/
def firstRepeatAfter [DecidableEq α] (seen : List α) : List α → Option α
  | [] => none
  | x :: xs => if x ∈ seen then some x else firstRepeatAfter (x :: seen) xs

/-- The first element of a list that equals an earlier one. -/
def firstRepeat [DecidableEq α] (xs : List α) : Option α := firstRepeatAfter [] xs

theorem firstRepeatAfter_eq_none_iff [DecidableEq α] {seen xs : List α} :
    firstRepeatAfter seen xs = none ↔ xs.Nodup ∧ ∀ x ∈ xs, x ∉ seen := by
  induction xs generalizing seen with
  | nil => simp [firstRepeatAfter]
  | cons x xs ih =>
    by_cases h : x ∈ seen
    · simp [firstRepeatAfter, h]
    · simp only [firstRepeatAfter, h, if_false, ih, List.nodup_cons, List.mem_cons]
      constructor
      · rintro ⟨nodup, fresh⟩
        refine ⟨⟨fun hx => fresh x hx (.inl rfl), nodup⟩, ?_⟩
        rintro y (rfl | hy)
        · exact h
        · exact fun hs => fresh y hy (.inr hs)
      · rintro ⟨⟨hx, nodup⟩, fresh⟩
        refine ⟨nodup, fun y hy => ?_⟩
        rintro (rfl | hs)
        · exact hx hy
        · exact fresh y (.inr hy) hs

theorem firstRepeat_eq_none_iff [DecidableEq α] {xs : List α} :
    firstRepeat xs = none ↔ xs.Nodup := by
  simp [firstRepeat, firstRepeatAfter_eq_none_iff]

/-- Accept a list of different arms only. -/
def requireDistinct (ids : List ArmId) : Except Rejection Unit :=
  match firstRepeat ids with
  | some id => .error (.duplicateArm id)
  | none => .ok ()

theorem requireDistinct_eq_ok_iff {ids : List ArmId} :
    requireDistinct ids = .ok () ↔ ids.Nodup := by
  rw [← firstRepeat_eq_none_iff]
  unfold requireDistinct
  split <;> simp_all

/-- The arms of a bandit, in order, and a table of their positions. -/
structure ArmIndex where
  ids : List ArmId
  table : List (ArmId × Nat)
  deriving DecidableEq, Repr

namespace ArmIndex

/-- A table with one more arm, which must not be in it yet. -/
def enter (table : List (ArmId × Nat)) (entry : ArmId × Nat) :
    Except Rejection (List (ArmId × Nat)) :=
  match table.lookup entry.1 with
  | some _ => .error (.duplicateArm entry.1)
  | none => .ok (table ++ [entry])

/-- The index of a list without repeats. -/
def ofList (ids : List ArmId) : Except Rejection ArmIndex := do
  let table ← ids.zipIdx.foldlM enter []
  return ⟨ids, table⟩

def size (index : ArmIndex) : Nat := index.ids.length

def isEmpty (index : ArmIndex) : Bool := index.ids.isEmpty

/-- The position of an arm; an unknown arm is reported with all known ones. -/
def position (index : ArmIndex) (arm : ArmId) : Except Rejection Nat :=
  match index.table.lookup arm with
  | some i => .ok i
  | none => .error (.unknownArm arm index.ids)

/-- The positions of a batch of arms, in the order of the batch. A repeated arm
is reported before an unknown one. -/
def positions (index : ArmIndex) (arms : List ArmId) : Except Rejection (List Nat) := do
  requireDistinct arms
  arms.mapM index.position

/-- Whether `arms` are all arms in the order of the index. -/
def isCanonical (index : ArmIndex) (arms : List ArmId) : Bool := index.ids = arms

/-- Arms are entered until one is in the table already. -/
theorem foldlM_enter {seen : List ArmId} {table : List (ArmId × Nat)}
    (keys : ∀ arm, arm ∈ seen ↔ (table.lookup arm).isSome) (ids : List ArmId) (k : Nat) :
    (ids.zipIdx k).foldlM enter table = match firstRepeatAfter seen ids with
      | some arm => .error (.duplicateArm arm)
      | none => .ok (table ++ ids.zipIdx k) := by
  induction ids generalizing seen table k with
  | nil => simp [firstRepeatAfter, pure, Except.pure]
  | cons arm ids ih =>
    rw [List.zipIdx_cons, List.foldlM_cons, firstRepeatAfter, enter]
    by_cases known : arm ∈ seen
    · obtain ⟨i, found⟩ := Option.isSome_iff_exists.mp ((keys arm).mp known)
      simp [known, found, bind, Except.bind]
    · have new : table.lookup arm = none := by
        rwa [keys arm, Option.not_isSome_iff_eq_none] at known
      have keys' : ∀ other, other ∈ arm :: seen ↔ ((table ++ [(arm, k)]).lookup other).isSome := by
        intro other
        rw [List.lookup_append, List.mem_cons, keys other]
        by_cases same : other = arm
        · simp [same]
        · have differs : (other == arm) = false := by simpa using same
          cases table.lookup other <;> simp [same, differs, List.lookup_cons]
      simp [known, new, bind, Except.bind, ih keys']

theorem ofList_eq (ids : List ArmId) :
    ofList ids = (requireDistinct ids).map fun _ => ⟨ids, ids.zipIdx⟩ := by
  unfold ofList requireDistinct firstRepeat
  have keys : ∀ arm : ArmId, arm ∈ [] ↔ (List.lookup arm ([] : List (ArmId × Nat))).isSome := by
    simp
  rw [foldlM_enter keys]
  cases firstRepeatAfter [] ids <;> simp [bind, Except.bind, Except.map, pure, Except.pure]

theorem ofList_eq_ok_iff {ids : List ArmId} {index : ArmIndex} :
    ofList ids = .ok index ↔ ids.Nodup ∧ index = ⟨ids, ids.zipIdx⟩ := by
  rw [← requireDistinct_eq_ok_iff, ofList_eq]
  cases requireDistinct ids <;> simp [Except.map, eq_comm]

theorem position_eq_ok_iff {index : ArmIndex} {arm : ArmId} {i : Nat} :
    index.position arm = .ok i ↔ index.table.lookup arm = some i := by
  unfold position
  cases index.table.lookup arm <;> simp

/-- The table of an index finds the place of an arm in the list. -/
theorem lookup_zipIdx (ids : List ArmId) (arm : ArmId) (k : Nat) :
    (ids.zipIdx k).lookup arm = (ids.idxOf? arm).map (· + k) := by
  induction ids generalizing k with
  | nil => simp
  | cons id ids ih =>
    rw [List.zipIdx_cons, List.lookup_cons, List.idxOf?_cons, ih]
    by_cases same : arm = id
    · simp [same]
    · have other : (id == arm) = false := by simpa using Ne.symm same
      have differs : (arm == id) = false := by simpa using same
      simp only [other, differs, Bool.false_eq_true, if_false, Option.map_map]
      congr 1
      funext i
      exact (Nat.add_right_comm i 1 k).symm

theorem isCanonical_iff {index : ArmIndex} {arms : List ArmId} :
    index.isCanonical arms ↔ index.ids = arms := by simp [isCanonical]

end ArmIndex

end UpperConfidence

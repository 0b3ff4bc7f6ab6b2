import Tempr.Intel.RelationCandidates

/-!
# The search for a prefix

The search starts where a binary search of the sorted names leads, and stops at
the first name without the prefix or at the cap. What it returns are the first
objects, by folded name and place, of all whose folded names begin with the
prefix.
-/

namespace Tempr.Intel

open Tempr.Support Tempr.Support.SortedScan Tempr.Services

/-- The loop of `prefix_search` over the names from the partition point on. -/
def scanNames (folded : Text) (cap : ℕ) (out : List ℕ) :
    List (Text × ℕ) → List ℕ × Bool
  | [] => (out, false)
  | (name, idx) :: names =>
      if ¬ folded.isPrefixOf name then (out, false)
      else if out.length = cap then (out, true)
      else scanNames folded cap (out ++ [idx]) names

/-- What the loop adds to `out`. -/
theorem scanNames_eq (folded : Text) (cap : ℕ) (names : List (Text × ℕ))
    {out : List ℕ} (hout : out.length ≤ cap) :
    scanNames folded cap out names =
      (out ++ ((names.takeWhile fun p => folded.isPrefixOf p.1).take
          (cap - out.length)).map Prod.snd,
        decide (cap < out.length +
          (names.takeWhile fun p => folded.isPrefixOf p.1).length)) := by
  induction names generalizing out with
  | nil => simp [scanNames, hout]
  | cons p names ih =>
    obtain ⟨name, idx⟩ := p
    rw [scanNames]
    by_cases hname : folded.isPrefixOf name
    · have htake : ((name, idx) :: names).takeWhile
          (fun p => folded.isPrefixOf p.1) =
            (name, idx) :: names.takeWhile fun p => folded.isPrefixOf p.1 := by
        simp [hname]
      rw [if_neg (not_not_intro hname), htake]
      by_cases hfull : out.length = cap
      · simp [hfull]
      · have hroom : cap - out.length = cap - (out ++ [idx]).length + 1 := by
          simp only [List.length_append, List.length_singleton]
          omega
        have hcount : (out ++ [idx]).length +
            (names.takeWhile fun p => folded.isPrefixOf p.1).length =
              out.length + ((name, idx) ::
                names.takeWhile fun p => folded.isPrefixOf p.1).length := by
          simp only [List.length_append, List.length_cons, List.length_nil]
          omega
        rw [if_neg hfull, ih (by simp; omega), hroom, hcount,
          List.take_succ_cons, List.map_cons, List.append_assoc]
        rfl
    · rw [if_pos hname, List.takeWhile_cons_of_neg (by simpa using hname)]
      simp [hout]

namespace CatalogCache

variable {Id : Type} [DecidableEq Id] [Unicode] {snapshot : SchemaSnapshot Id}

/-- From the partition point on, the loop finds what the search is said to
find. -/
theorem scanNames_of_isPartitionPoint {typed : Text} {cap start : ℕ}
    (h : IsPartitionPoint (fun p => decide (p.1 < toLowercase typed))
      (fromSnapshot snapshot).nameOrder start) :
    scanNames (toLowercase typed) cap []
        ((fromSnapshot snapshot).nameOrder.drop start) =
      (fromSnapshot snapshot).prefixSearch typed cap := by
  rw [h.drop_eq, scanNames_eq _ _ _ (Nat.zero_le cap)]
  simp [prefixSearch]

/-- The relations and functions whose folded names begin with the folded
prefix, each with its folded name and its place. -/
def namesStarting (catalog : CatalogCache Id) (typed : Text) :
    List (Text × ℕ) :=
  (catalog.objects.zipIdx.filter fun p =>
    p.1.isNamed && (toLowercase typed).isPrefixOf (toLowercase p.1.name)).map
      foldedPlace

theorem filter_nameOrder (typed : Text) :
    (fromSnapshot snapshot).nameOrder.filter
        (fun p => (toLowercase typed).isPrefixOf p.1) =
      ((fromSnapshot snapshot).namesStarting typed).insertionSort PlaceLe := by
  have hperm : ((fromSnapshot snapshot).nameOrder.filter
      fun p => (toLowercase typed).isPrefixOf p.1).Perm
        ((fromSnapshot snapshot).namesStarting typed) := by
    refine (nameOrder_perm.filter _).trans (List.Perm.of_eq ?_)
    rw [List.filter_map, List.filter_filter, namesStarting]
    congr 2
    funext p
    exact Bool.and_comm _ _
  apply List.Perm.eq_of_pairwise (fun a b _ _ => placeLe_antisymm)
    ((nameOrder_pairwise.imp PlaceLt.le).filter _)
    (List.pairwise_insertionSort _ _)
  exact hperm.trans (List.perm_insertionSort _ _).symm

/-- The search returns the first relations and functions whose folded names
begin with the folded prefix, each once, and tells whether there are more; so
does the loop from the partition point on. -/
theorem prefixSearch_exact (typed : Text) (cap : ℕ) :
    (fromSnapshot snapshot).prefixSearch typed cap =
        (((((fromSnapshot snapshot).namesStarting typed).insertionSort
            PlaceLe).take cap).map Prod.snd,
          decide (cap < ((fromSnapshot snapshot).namesStarting typed).length)) ∧
      ((fromSnapshot snapshot).prefixSearch typed cap).1.Nodup ∧
      (∃ start, IsPartitionPoint (fun p => decide (p.1 < toLowercase typed))
        (fromSnapshot snapshot).nameOrder start) ∧
      ∀ start, IsPartitionPoint (fun p => decide (p.1 < toLowercase typed))
          (fromSnapshot snapshot).nameOrder start →
        scanNames (toLowercase typed) cap []
            ((fromSnapshot snapshot).nameOrder.drop start) =
          (fromSnapshot snapshot).prefixSearch typed cap := by
  refine ⟨?_, ?_, exists_isPartitionPoint (nameOrder_below _),
    fun start => scanNames_of_isPartitionPoint⟩
  · rw [prefixSearch_eq, filter_nameOrder, List.length_insertionSort]
  · rw [prefixSearch_eq]
    have hplaces : ((fromSnapshot snapshot).nameOrder.map Prod.snd).Nodup :=
      nameOrder_places
    exact List.Nodup.sublist
      (((List.take_sublist _ _).trans List.filter_sublist).map Prod.snd) hplaces

end CatalogCache

end Tempr.Intel

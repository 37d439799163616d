import AhaTree.Routing

/-!
# Files after a node split

When an internal node splits, `DistributeFilesToNodes` deals the files of its
buffer out to the pages of the split, each of which has a guard.  Afterwards
the guards are pivots of the page above, where flushes and scans follow them.
-/

namespace AhaTree

/-- The nodes a split leaves behind, each with its guard: the split node itself
first, then the new pages.  A split makes at least one new page. -/
structure SplitNodes where
  nodes : IndexItems
  increasing : (pivots nodes).Pairwise (· < ·)
  distinct : (nodes.map Prod.snd).Nodup
  several : 2 ≤ nodes.length

/-- The file lies in the interval between the guard at `index` and the next
one.  The first interval has no lower end, the last one no upper end. -/
def InInterval (nodes : IndexItems) (index : Nat) (file : FileMetaData) : Prop :=
  (index = 0 ∨ ∀ place ∈ nodes[index]?, place.1 ≤ file.start) ∧
    ∀ next ∈ nodes[index + 1]?, file.limit < next.1

/-- Ascending files with disjoint ranges of user keys. -/
def AscendingDisjoint (files : List FileMetaData) : Prop :=
  files.Pairwise (fun earlier later => earlier.limit < later.start)

instance (files : List FileMetaData) : Decidable (AscendingDisjoint files) :=
  inferInstanceAs (Decidable (files.Pairwise _))

theorem AscendingDisjoint.startSorted {files : List FileMetaData}
    (ascending : AscendingDisjoint files) : StartSorted files := by
  refine List.Pairwise.imp ?_ ascending
  intro earlier later apart
  exact earlier.start_le_limit.trans apart.le

/-- Every file is put in the buffer of the node whose interval holds it, and in
no other; flushing by the same guards would send it to the same node; and a scan
that starts at one of its keys visits that node. -/
def RoutesAgree (nodes : IndexItems) (files : List FileMetaData) : Prop :=
  ∃ routed flushed,
    distributeFilesToNodes nodes files = some routed ∧
    flushFilesToChildrenNoSplit nodes files = some flushed ∧
    ∀ file ∈ files, ∀ index place, nodes[index]? = some place →
      InInterval nodes index file →
      (∀ chosen, Lib.Deals routed chosen file ↔ chosen = place.2) ∧
      (∀ chosen, Lib.Deals flushed chosen file ↔ Lib.Deals routed chosen file) ∧
      ∀ key, file.Covers key → Visits nodes key place.2

namespace SplitNodes

variable (split : SplitNodes)

variable {split} {file : FileMetaData} {index : Nat} {place : Slice × PageId}

/-- Flushing sends a file to the node whose interval holds it. -/
theorem ownerOf_flush (atIndex : split.nodes[index]? = some place)
    (inside : InInterval split.nodes index file) :
    Lib.ownerOf flushLeavesTo split.nodes file = some place.2 :=
  ownerOf_flush_of_start split.increasing atIndex
    (inside.1.imp_right (fun started => started place atIndex))
    (fun next isNext => file.start_le_limit.trans_lt (inside.2 next isNext))

/-- So does a scan that starts inside the file. -/
theorem ownerOf_key (atIndex : split.nodes[index]? = some place)
    (inside : InInterval split.nodes index file) {key : Slice}
    (covered : file.Covers key) :
    Lib.ownerOf reaches split.nodes key = some place.2 := by
  refine ownerOf_reaches_of_place split.increasing atIndex ?_ ?_
  · exact inside.1.imp_right (fun started =>
      (started place atIndex).trans covered.1)
  · intro next isNext
    exact covered.2.trans_lt (inside.2 next isNext)

/-- The split sends a file to the node whose interval holds it, unless the file
starts on the guard of that node. -/
theorem ownerOf_distribute (atIndex : split.nodes[index]? = some place)
    (inside : InInterval split.nodes index file)
    (offGuard : index = 0 ∨ file.start ≠ place.1) :
    Lib.ownerOf distributeLeavesTo split.nodes file = some place.2 := by
  refine Lib.ownerOf_eq_of_place (ascending_at split.increasing file ?_) atIndex ?_ ?_
  · intro front behind order left
    rw [distributeLeavesTo_iff] at left ⊢
    exact order.trans left
  · rcases inside.1 with first | started
    · exact .inl first
    · refine offGuard.imp_right (fun different => ?_)
      rw [distributeLeavesTo_iff]
      exact lt_of_le_of_ne (started place atIndex) different.symm
  · intro next isNext
    have above := inside.2 next isNext
    rw [Bool.eq_false_iff, ne_eq, distributeLeavesTo_iff, not_lt]
    exact (file.start_le_limit.trans_lt above).le

theorem guard_lt_next {next : Slice × PageId}
    (atIndex : split.nodes[index]? = some place)
    (atNext : split.nodes[index + 1]? = some next) : place.1 < next.1 := by
  obtain ⟨_, rfl⟩ := List.getElem?_eq_some_iff.mp atIndex
  obtain ⟨_, rfl⟩ := List.getElem?_eq_some_iff.mp atNext
  have order := List.pairwise_iff_getElem.mp split.increasing index (index + 1)
    (by simp; omega) (by simp; omega) (by omega)
  simpa [pivots] using order

/-- A file that starts on a guard is sent to the node on its left. -/
theorem ownerOf_distribute_of_guard {previous : Slice × PageId}
    (before : split.nodes[index]? = some previous)
    (atNext : split.nodes[index + 1]? = some place)
    (onGuard : file.start = place.1) :
    Lib.ownerOf distributeLeavesTo split.nodes file = some previous.2 := by
  refine Lib.ownerOf_eq_of_place (ascending_at split.increasing file ?_) before (.inr ?_) ?_
  · intro front behind order left
    rw [distributeLeavesTo_iff] at left ⊢
    exact order.trans left
  · rw [distributeLeavesTo_iff, onGuard]
    exact guard_lt_next before atNext
  · intro next isNext
    have same : next = place := Option.some.inj (isNext.symm.trans atNext)
    rw [Bool.eq_false_iff, ne_eq, distributeLeavesTo_iff, same, onGuard]
    exact lt_irrefl _

theorem node_ne_of_next {previous : Slice × PageId}
    (before : split.nodes[index]? = some previous)
    (atNext : split.nodes[index + 1]? = some place) : previous.2 ≠ place.2 := by
  obtain ⟨_, rfl⟩ := List.getElem?_eq_some_iff.mp before
  obtain ⟨_, rfl⟩ := List.getElem?_eq_some_iff.mp atNext
  have apart := List.pairwise_iff_getElem.mp split.distinct index (index + 1)
    (by simp; omega) (by simp; omega) (by omega)
  simpa using apart

theorem deals_distribute {files : List FileMetaData}
    (ascending : AscendingDisjoint files) (member : file ∈ files)
    (chosen : PageId) :
    Lib.Deals (Lib.cut distributeLeavesTo split.nodes files) chosen file ↔
      Lib.ownerOf distributeLeavesTo split.nodes file = some chosen :=
  Lib.deals_cut_iff (distribute_respects ascending.startSorted) member chosen

theorem deals_flush {files : List FileMetaData}
    (ascending : AscendingDisjoint files) (member : file ∈ files)
    (chosen : PageId) :
    Lib.Deals (Lib.cut flushLeavesTo split.nodes files) chosen file ↔
      Lib.ownerOf flushLeavesTo split.nodes file = some chosen :=
  Lib.deals_cut_iff (flush_respects ascending.startSorted) member chosen

theorem flush_eq (files : List FileMetaData) :
    flushFilesToChildrenNoSplit split.nodes files =
      some (Lib.cut flushLeavesTo split.nodes files) :=
  flushFilesToChildrenNoSplit_eq (by
    intro pivot child file single
    have several := split.several
    simp [single] at several)

/-- A node split sends every buffered file to the node that flushes and scans
will look in, exactly when no file starts on the guard of a new page. -/
theorem distributeFilesToNodes_agrees_iff (split : SplitNodes)
    {files : List FileMetaData} (ascending : AscendingDisjoint files)
    (inside : ∀ file ∈ files, ∃ index, index < split.nodes.length ∧
      InInterval split.nodes index file) :
    RoutesAgree split.nodes files ↔
      ∀ file ∈ files, file.start ∉ (pivots split.nodes).tail := by
  have distributed : distributeFilesToNodes split.nodes files = some _ :=
    distributeFilesToNodes_eq split.several
  constructor
  · rintro ⟨routed, flushed, routedEq, -, agree⟩ file member onGuard
    obtain ⟨index, hit⟩ := List.getElem?_of_mem onGuard
    rw [List.getElem?_tail, pivots, List.getElem?_map,
      Option.map_eq_some_iff] at hit
    obtain ⟨place, atNext, guardEq⟩ := hit
    have nextInside := (List.getElem?_eq_some_iff.mp atNext).1
    have before : split.nodes[index]? = some (split.nodes.get ⟨index, by omega⟩) :=
      List.getElem?_eq_getElem (by omega)
    -- the interval of the file begins with the guard it starts on
    obtain ⟨home, homeInside, interval⟩ := inside file member
    have wrong := ownerOf_distribute_of_guard before atNext guardEq.symm
    obtain ⟨homePlace, atHome⟩ : ∃ homePlace, split.nodes[home]? = some homePlace :=
      ⟨_, List.getElem?_eq_getElem homeInside⟩
    obtain ⟨right, -, -⟩ := agree file member home homePlace atHome interval
    have routedCut : routed = Lib.cut distributeLeavesTo split.nodes files :=
      Option.some.inj (routedEq.symm.trans distributed)
    have sentWrong := (deals_distribute ascending member _).mpr wrong
    rw [← routedCut] at sentWrong
    have sameNode := (right _).mp sentWrong
    have flushHome := ownerOf_flush atHome interval
    have flushNext : Lib.ownerOf flushLeavesTo split.nodes file = some place.2 :=
      ownerOf_flush_of_start split.increasing atNext (.inr guardEq.le) (by
        intro next isNext
        rw [← guardEq]
        exact guard_lt_next atNext isNext)
    have homeNext : homePlace.2 = place.2 :=
      Option.some.inj (flushHome.symm.trans flushNext)
    exact node_ne_of_next before atNext (sameNode.trans homeNext)
  · intro offGuards
    refine ⟨_, _, distributed, flush_eq files, ?_⟩
    intro file member index place atIndex interval
    have offGuard : index = 0 ∨ file.start ≠ place.1 := by
      cases index with
      | zero => exact .inl rfl
      | succ index =>
          refine .inr (fun onGuard => offGuards file member ?_)
          rw [onGuard]
          apply List.mem_of_getElem? (i := index)
          rw [List.getElem?_tail, pivots, List.getElem?_map, atIndex]
          rfl
    have owner := ownerOf_distribute atIndex interval offGuard
    have flushOwner := ownerOf_flush atIndex interval
    refine ⟨?_, ?_, ?_⟩
    · intro chosen
      rw [deals_distribute ascending member, owner]
      simp [eq_comm]
    · intro chosen
      rw [deals_distribute ascending member, deals_flush ascending member,
        owner, flushOwner]
    · intro key covered
      exact visits_of_ownerOf split.increasing (ownerOf_key atIndex interval covered)

theorem pair_increasing : (pivots [([1], 7), ([4], 8)]).Pairwise (· < ·) := by
  decide

/-- The split of a node into two, with guards `[1]` and `[4]`. -/
def pair : SplitNodes where
  nodes := [([1], 7), ([4], 8)]
  increasing := pair_increasing
  distinct := by decide
  several := by decide

theorem pair_agrees :
    RoutesAgree pair.nodes
      [FileMetaData.spanning 20 [0] [2] (by decide),
        FileMetaData.spanning 21 [5] [6] (by decide)] := by
  apply (distributeFilesToNodes_agrees_iff pair (by decide) ?_).mpr (by decide)
  intro file member
  simp only [List.mem_cons, List.not_mem_nil, or_false] at member
  rcases member with rfl | rfl
  · exact ⟨0, by decide, .inl rfl, by decide⟩
  · exact ⟨1, by decide, .inr (by decide), by decide⟩

/-- A file that starts on the second guard is put in the buffer of the first
node. -/
theorem distributeFilesToNodes_misroutes :
    ¬ ∀ (split : SplitNodes) (files : List FileMetaData),
      AscendingDisjoint files →
      (∀ file ∈ files, ∃ index, index < split.nodes.length ∧
        InInterval split.nodes index file) →
      RoutesAgree split.nodes files := by
  intro claim
  obtain ⟨routed, flushed, routedEq, -, agree⟩ :=
    claim pair [FileMetaData.spanning 20 [4] [5] (by decide)] (by decide) (by
      intro file member
      simp only [List.mem_cons, List.not_mem_nil, or_false] at member
      rw [member]
      exact ⟨1, by decide, .inr (by decide), by decide⟩)
  obtain ⟨right, -, -⟩ := agree (FileMetaData.spanning 20 [4] [5] (by decide))
    (by simp) 1 ([4], 8) rfl ⟨.inr (by decide), by decide⟩
  have computed : routed =
      [(7, [FileMetaData.spanning 20 [4] [5] (by decide)])] := by
    have : distributeFilesToNodes pair.nodes
        [FileMetaData.spanning 20 [4] [5] (by decide)] =
        some [(7, [FileMetaData.spanning 20 [4] [5] (by decide)])] := by decide
    exact Option.some.inj (routedEq.symm.trans this)
  rw [computed] at right
  have sent := (right 7).mp (by simp)
  exact absurd sent (by decide)

end SplitNodes

end AhaTree

import AhaTree.ChildFlush

/-!
# A flush conserves the files

Files that go to a child with a buffer leave the level of the buffer above, and
their entries are in the buffer of that child or hidden there.  Files for a page
stay.  Nothing else moves, and no user key loses its newest version.
-/

namespace AhaTree

open Lsmt

/-! ## The shares of the children -/

/-- Which files each child is to get. -/
structure Shares (files : List FileMetaData) (share : PageId → List FileMetaData) : Prop where
  mem_iff : ∀ file, file ∈ files ↔ ∃ child, file ∈ share child
  apart : ∀ {left right file}, file ∈ share left → file ∈ share right → left = right
  nodup : ∀ child, (share child).Nodup

/-- The files that a routing has for a child. -/
def shareOf (routed : List (PageId × List FileMetaData)) (child : PageId) :
    List FileMetaData :=
  (routed.lookup child).getD []

theorem shareOf_of_mem {routed : List (PageId × List FileMetaData)}
    (distinct : (routed.map Prod.fst).Nodup) {pair : PageId × List FileMetaData}
    (member : pair ∈ routed) : shareOf routed pair.1 = pair.2 := by
  induction routed with
  | nil => cases member
  | cons first routed ih =>
      obtain ⟨apart, restDistinct⟩ := List.nodup_cons.mp distinct
      rcases List.mem_cons.mp member with rfl | later
      · rw [shareOf, List.lookup_cons, beq_self_eq_true]
        rfl
      · have different : pair.1 ≠ first.1 := by
          intro same
          exact apart (same ▸ List.mem_map_of_mem later)
        have next := ih restDistinct later
        rw [shareOf, List.lookup_cons, beq_false_of_ne different]
        exact next

theorem shareOf_of_not_mem {routed : List (PageId × List FileMetaData)} {child : PageId}
    (unrouted : child ∉ routed.map Prod.fst) : shareOf routed child = [] := by
  induction routed with
  | nil => rfl
  | cons first routed ih =>
      rw [List.map_cons, List.mem_cons, not_or] at unrouted
      rw [shareOf, List.lookup_cons, beq_false_of_ne unrouted.1]
      exact ih unrouted.2

theorem mem_shareOf_iff {routed : List (PageId × List FileMetaData)}
    (distinct : (routed.map Prod.fst).Nodup) {child : PageId} {file : FileMetaData} :
    file ∈ shareOf routed child ↔ Lib.Deals routed child file := by
  constructor
  · intro member
    by_cases isRouted : child ∈ routed.map Prod.fst
    · obtain ⟨pair, isPair, rfl⟩ := List.mem_map.mp isRouted
      rw [shareOf_of_mem distinct isPair] at member
      exact ⟨pair.2, isPair, member⟩
    · rw [shareOf_of_not_mem isRouted] at member
      cases member
  · rintro ⟨share, isPair, inside⟩
    rw [shareOf_of_mem distinct isPair]
    exact inside

theorem shares_shareOf {routed : List (PageId × List FileMetaData)} {files : List FileMetaData}
    (distinct : (routed.map Prod.fst).Nodup) (dealt : routed.flatMap Prod.snd = files)
    (once : files.Nodup) : Shares files (shareOf routed) := by
  rw [← dealt, List.nodup_flatMap] at once
  obtain ⟨each, disjoint⟩ := once
  refine ⟨?_, ?_, ?_⟩
  · intro file
    rw [← dealt, List.mem_flatMap]
    constructor
    · rintro ⟨pair, isPair, inside⟩
      exact ⟨pair.1, (mem_shareOf_iff distinct).mpr ⟨pair.2, isPair, inside⟩⟩
    · rintro ⟨child, member⟩
      obtain ⟨share, isPair, inside⟩ := (mem_shareOf_iff distinct).mp member
      exact ⟨(child, share), isPair, inside⟩
  · intro left right file inLeft inRight
    obtain ⟨leftShare, isLeft, inLeftShare⟩ := (mem_shareOf_iff distinct).mp inLeft
    obtain ⟨rightShare, isRight, inRightShare⟩ := (mem_shareOf_iff distinct).mp inRight
    by_contra different
    have symmetric : Std.Symm (Function.onFun List.Disjoint
        (Prod.snd : PageId × List FileMetaData → List FileMetaData)) :=
      ⟨fun _ _ clear => List.Disjoint.symm clear⟩
    have apart := disjoint.forall isLeft isRight
      (fun same => different (congrArg Prod.fst same))
    exact apart inLeftShare inRightShare
  · intro child
    by_cases isRouted : child ∈ routed.map Prod.fst
    · obtain ⟨pair, isPair, rfl⟩ := List.mem_map.mp isRouted
      rw [shareOf_of_mem distinct isPair]
      exact each pair isPair
    · rw [shareOf_of_not_mem isRouted]
      exact List.nodup_nil

/-! ## The buffers with their shares -/

theorem Lsmt.Shallow.copy_files {lsmt : Lsmt} (shallow : lsmt.Shallow) :
    lsmt.copy.files = lsmt.files := by
  funext level
  by_cases inside : level < kNumLevels
  · exact LeafFlush.copy_files inside
  · have empty := shallow level (Nat.le_of_not_lt inside)
    simp [Lsmt.copy, empty]

/-- The share of a child is in level 0 of its new buffer. -/
theorem appended_current {node : BufferNode} (idle : node.lsmt4compact = none)
    (shallow : node.current.Shallow) (given : List FileMetaData) :
    (node.appended given).current.files =
        Function.update node.current.files 0 (node.current.files 0 ++ given) ∧
      (node.appended given).current.obsoleteFiles = node.current.obsoleteFiles := by
  rw [BufferNode.current_of_idle idle] at shallow
  have same := shallow.copy_files
  by_cases empty : given.isEmpty = true
  · rw [BufferNode.appended, if_pos empty, List.isEmpty_iff.mp empty, List.append_nil,
      Function.update_eq_self]
    exact ⟨rfl, rfl⟩
  · rw [BufferNode.appended, if_neg empty, BufferNode.current_of_idle idle]
    simp only [BufferNode.bufferAppendFiles, BufferNode.current, BufferNode.prepared, idle,
      Option.getD_none, Option.map_some, Option.getD_some, Checked.appendFiles,
      Checked.pushFiles, Buffer.copy, same]
    exact ⟨trivial, rfl⟩

theorem shallow_appended {node : BufferNode} (idle : node.lsmt4compact = none)
    (shallow : node.current.Shallow) (given : List FileMetaData) :
    (node.appended given).current.Shallow := by
  intro level beyond
  have positive : level ≠ 0 := by
    have levels : 0 < kNumLevels := by decide
    omega
  rw [(appended_current idle shallow given).1, Function.update_of_ne positive]
  exact shallow level beyond

theorem mem_appended_iff {node : BufferNode} (idle : node.lsmt4compact = none)
    (shallow : node.current.Shallow) {given : List FileMetaData} {level : Nat}
    {file : FileMetaData} :
    file ∈ (node.appended given).current.files level ↔
      file ∈ node.current.files level ∨ level = 0 ∧ file ∈ given := by
  rw [(appended_current idle shallow given).1]
  by_cases top : level = 0
  · subst top
    simp
  · simp [top]

theorem stored_appended_iff {node : BufferNode} (idle : node.lsmt4compact = none)
    (shallow : node.current.Shallow) {given : List FileMetaData} {disk : Disk}
    {entry : Entry} :
    ((node.appended given).current.onDisk disk).Stored entry ↔
      (node.current.onDisk disk).Stored entry ∨
        ∃ file ∈ given, entry ∈ disk.tables file.number := by
  constructor
  · rintro ⟨level, file, member, inside⟩
    rcases (mem_appended_iff idle shallow).mp member with old | ⟨-, isGiven⟩
    · exact .inl ⟨level, file, old, inside⟩
    · exact .inr ⟨file, isGiven, inside⟩
  · rintro (⟨level, file, member, inside⟩ | ⟨file, isGiven, inside⟩)
    · exact ⟨level, file, (mem_appended_iff idle shallow).mpr (.inl member), inside⟩
    · exact ⟨0, file, (mem_appended_iff idle shallow).mpr (.inr ⟨rfl, isGiven⟩), inside⟩

/-- The buffer above, or that of a child, holds the entry. -/
def Subtree.Holds (tree : Subtree) (entry : Entry) : Prop :=
  ∃ here lsmt, familyOf tree.buffer.lsmt tree.nodes here = some lsmt ∧
    (lsmt.onDisk tree.disk).Stored entry

/-- The page has children, each of them once, no buffer is prepared, the LSMTs are in
order on their disk, and user key and sequence number name one entry. -/
structure Subtree.Settled (tree : Subtree) : Prop where
  filled : tree.items ≠ []
  distinct : (tree.items.map Prod.snd).Nodup
  idle : ∀ {child node}, tree.nodes child = some node → node.lsmt4compact = none
  shallow : ∀ {child node}, tree.nodes child = some node → node.current.Shallow
  family : OnOneDisk tree.disk (familyOf tree.buffer.lsmt tree.nodes)
  named : ∀ left right, tree.Holds left → tree.Holds right → left.userKey = right.userKey →
    left.sequence = right.sequence → left = right

section Appended

variable {tree : Subtree} (settled : tree.Settled) {level : Nat} {files : List FileMetaData}
  (subset : ∀ file ∈ files, file ∈ tree.buffer.lsmt.files level)

include settled

theorem Subtree.Settled.buffer_sound : Sound (tree.buffer.lsmt.onDisk tree.disk) :=
  settled.family.sound (show familyOf tree.buffer.lsmt tree.nodes none = _ from rfl)

theorem Subtree.Settled.node_sound {child : PageId} {node : BufferNode}
    (isNode : tree.nodes child = some node) : Sound (node.current.onDisk tree.disk) := by
  refine settled.family.sound (show familyOf tree.buffer.lsmt tree.nodes (some child) = _ from ?_)
  rw [familyOf, isNode]
  rfl

include subset

/-- The files of the share are new to the child. -/
theorem fresh_of_share {child : PageId} {node : BufferNode}
    (isNode : tree.nodes child = some node) {file : FileMetaData} (member : file ∈ files) :
    ¬ node.current.Owns file.number ∧ Fresh (node.current.onDisk tree.disk) file := by
  have sound := settled.buffer_sound
  have live : ¬ tree.buffer.lsmt.Absent file.number :=
    fun gone => gone level file (subset file member) rfl
  have foreign : ¬ node.current.Owns file.number := by
    intro owns
    have found : familyOf tree.buffer.lsmt tree.nodes (some child) = some node.current := by
      rw [familyOf, isNode]
      rfl
    have same : (none : Option PageId) = some child :=
      settled.family.owned rfl found (.inl live) owns
    cases same
  refine ⟨foreign, ?_, ?_, ?_⟩
  · intro place other isOther same
    refine foreign (.inl ?_)
    intro gone
    exact gone place other isOther same.symm
  · exact sound.leveled.numbered level file (subset file member)
  · exact sound.leveled.described level file (subset file member)

/-- The buffer of a child with its share. -/
theorem sound_appended {child : PageId} {node : BufferNode}
    (isNode : tree.nodes child = some node) {given : List FileMetaData}
    (isGiven : ∀ file ∈ given, file ∈ files) (once : given.Nodup) :
    Sound ((node.appended given).current.onDisk tree.disk) := by
  have idle := settled.idle isNode
  have shallow := settled.shallow isNode
  have old := settled.node_sound isNode
  have above := settled.buffer_sound
  obtain ⟨sameFiles, sameObsolete⟩ := appended_current idle shallow given
  have found : familyOf tree.buffer.lsmt tree.nodes (some child) = some node.current := by
    rw [familyOf, isNode]
    rfl
  have holds : ∀ entry, ((node.appended given).current.onDisk tree.disk).Stored entry →
      tree.Holds entry ∧ entry.IsValue := by
    intro entry isStored
    rcases (stored_appended_iff idle shallow).mp isStored with own | ⟨file, isFile, inside⟩
    · exact ⟨⟨some child, _, found, own⟩, old.plain.values entry own⟩
    · have stored : (tree.buffer.lsmt.onDisk tree.disk).Stored entry :=
        ⟨level, file, subset file (isGiven file isFile), inside⟩
      exact ⟨⟨none, _, rfl, stored⟩, above.plain.values entry stored⟩
  have distinct : (given.map FileMetaData.number).Nodup := by
    refine once.map_on ?_
    intro file member twin isTwin same
    exact (above.leveled.once level level file twin (subset file (isGiven file member))
      (subset twin (isGiven twin isTwin)) same).2
  have pushed : Leveled (Checked.pushFiles given (node.current.onDisk tree.disk)) :=
    Checked.leveled_pushFiles old.leveled
      (fun file member => (fresh_of_share settled subset isNode (isGiven file member)).2)
      distinct
  refine ⟨pushed.of_same sameFiles rfl rfl, ⟨?_, ?_⟩, ?_⟩
  · intro left right isLeft isRight
    exact settled.named left right (holds left isLeft).1 (holds right isRight).1
  · intro entry isStored
    exact (holds entry isStored).2
  · intro number obsolete
    have isOld : number ∈ node.current.obsoleteFiles := by
      rw [← sameObsolete]
      exact obsolete
    obtain ⟨absent, known⟩ := old.retired number isOld
    refine ⟨?_, known⟩
    intro place file member same
    rcases (mem_appended_iff idle shallow).mp member with inside | ⟨-, isFile⟩
    · exact absent place file inside same
    · exact (fresh_of_share settled subset isNode (isGiven file isFile)).1
        (.inr (same.symm ▸ isOld))

/-- The files that go to children with a buffer. -/
def FlushedTo (nodes : PageId → Option BufferNode) (share : PageId → List FileMetaData)
    (flushed : List FileMetaData) : Prop :=
  ∀ file, file ∈ flushed ↔ ∃ child, (nodes child).isSome = true ∧ file ∈ share child

theorem number_mem_map_iff {flushed : List FileMetaData}
    (among : ∀ file ∈ flushed, file ∈ files) {file : FileMetaData}
    (member : file ∈ tree.buffer.lsmt.files level) :
    file.number ∈ flushed.map FileMetaData.number ↔ file ∈ flushed := by
  constructor
  · intro isNumber
    obtain ⟨twin, isTwin, same⟩ := List.mem_map.mp isNumber
    have equal := (settled.buffer_sound.leveled.once level level twin file
      (subset twin (among twin isTwin)) member same).2
    exact equal ▸ isTwin
  · exact List.mem_map_of_mem

variable {share : PageId → List FileMetaData} (shares : Shares files share)
  {flushed : List FileMetaData} (isFlushed : FlushedTo tree.nodes share flushed)
  (inside : level < kNumLevels)

include shares isFlushed inside

/-- What the buffer above owns afterwards it owned before, and no child got it. -/
theorem owns_of_finalizeRetrieval {number : Nat}
    (owns : (tree.buffer.lsmt.finalizeRetrieval level flushed).Owns number) :
    tree.buffer.lsmt.Owns number ∧
      ∀ child file, (tree.nodes child).isSome = true → file ∈ share child →
        file.number ≠ number := by
  have sound := settled.buffer_sound
  rcases owns with live | obsolete
  · simp only [Absent, not_forall, not_not] at live
    obtain ⟨place, file, member, rfl⟩ := live
    obtain ⟨isFile, apart⟩ := (LeafFlush.mem_finalizeRetrieval_iff inside).mp member
    refine ⟨.inl (fun gone => gone place file isFile rfl), ?_⟩
    intro child other isNode isShare same
    have isOther := subset other ((shares.mem_iff other).mpr ⟨child, isShare⟩)
    obtain ⟨rfl, rfl⟩ := sound.leveled.once level place other file isOther isFile same
    exact apart rfl (List.mem_map_of_mem ((isFlushed other).mpr ⟨child, isNode, isShare⟩))
  · rw [(LeafFlush.finalizeRetrieval_keeps _ _ _).2] at obsolete
    refine ⟨.inr obsolete, ?_⟩
    intro child other isNode isShare same
    have isOther := subset other ((shares.mem_iff other).mpr ⟨child, isShare⟩)
    exact (sound.retired number obsolete).1 level other isOther same

omit isFlushed inside in
/-- What a child owns with its share it owned before, or the share has it. -/
theorem owns_of_appended {child : PageId} {node : BufferNode}
    (isNode : tree.nodes child = some node) {number : Nat}
    (owns : (node.appended (share child)).current.Owns number) :
    node.current.Owns number ∨
      ∃ file ∈ share child, file ∈ tree.buffer.lsmt.files level ∧ file.number = number := by
  have idle := settled.idle isNode
  have shallow := settled.shallow isNode
  rcases owns with live | obsolete
  · simp only [Absent, not_forall, not_not] at live
    obtain ⟨place, file, member, rfl⟩ := live
    rcases (mem_appended_iff idle shallow).mp member with old | ⟨-, isShare⟩
    · exact .inl (.inl (fun gone => gone place file old rfl))
    · exact .inr ⟨file, isShare, subset file ((shares.mem_iff file).mpr ⟨child, isShare⟩), rfl⟩
  · rw [(appended_current idle shallow _).2] at obsolete
    exact .inl (.inr obsolete)

/-- The LSMTs once the files are in the buffers of the children. -/
theorem family_appended {nodes : PageId → Option BufferNode}
    (isNodes : ∀ child, nodes child =
      (tree.nodes child).map (BufferNode.appended (share child))) :
    OnOneDisk tree.disk
      (familyOf (tree.buffer.lsmt.finalizeRetrieval level flushed) nodes) := by
  have above := settled.buffer_sound
  have placed : ∀ {child lsmt},
      familyOf (tree.buffer.lsmt.finalizeRetrieval level flushed) nodes (some child) =
        some lsmt →
      ∃ node, tree.nodes child = some node ∧
        lsmt = (node.appended (share child)).current := by
    intro child lsmt isLsmt
    rw [familyOf, isNodes, Option.map_map, Option.map_eq_some_iff] at isLsmt
    obtain ⟨node, isNode, rfl⟩ := isLsmt
    exact ⟨node, isNode, rfl⟩
  have found : ∀ {child node}, tree.nodes child = some node →
      familyOf tree.buffer.lsmt tree.nodes (some child) = some node.current := by
    intro child node isNode
    rw [familyOf, isNode]
    rfl
  have live : ∀ {file : FileMetaData}, file ∈ tree.buffer.lsmt.files level →
      tree.buffer.lsmt.Owns file.number :=
    fun member => .inl (fun gone => gone level _ member rfl)
  -- The buffer above and a child.
  have mixed : ∀ {child lsmt number},
      familyOf (tree.buffer.lsmt.finalizeRetrieval level flushed) nodes (some child) =
        some lsmt →
      (tree.buffer.lsmt.finalizeRetrieval level flushed).Owns number →
      ¬ lsmt.Owns number := by
    intro child lsmt number isLsmt owns ownsChild
    obtain ⟨node, isNode, rfl⟩ := placed isLsmt
    obtain ⟨ownsAbove, unshared⟩ :=
      owns_of_finalizeRetrieval settled subset shares isFlushed inside owns
    rcases owns_of_appended settled subset shares isNode ownsChild with
      own | ⟨file, isShare, -, same⟩
    · have equal : (none : Option PageId) = some child :=
        settled.family.owned rfl (found isNode) ownsAbove own
      cases equal
    · exact unshared child file (by rw [isNode]; rfl) isShare same
  refine ⟨?_, ?_⟩
  · intro here lsmt isLsmt
    cases here with
    | none =>
        cases isLsmt
        refine above.of_sublist (Checked.finalizeRetrieval_sublist _ level flushed) ?_
        intro number obsolete
        rwa [(LeafFlush.finalizeRetrieval_keeps _ _ _).2] at obsolete
    | some child =>
        obtain ⟨node, isNode, rfl⟩ := placed isLsmt
        exact sound_appended settled subset isNode
          (fun file member => (shares.mem_iff file).mpr ⟨child, member⟩) (shares.nodup child)
  · intro here there left right number isLeft isRight ownsLeft ownsRight
    cases here with
    | none =>
        cases there with
        | none => rfl
        | some child =>
            cases isLeft
            exact absurd ownsRight (mixed isRight ownsLeft)
    | some child =>
        cases there with
        | none =>
            cases isRight
            exact absurd ownsLeft (mixed isLeft ownsRight)
        | some other =>
            obtain ⟨node, isNode, rfl⟩ := placed isLeft
            obtain ⟨twin, isTwin, rfl⟩ := placed isRight
            rcases owns_of_appended settled subset shares isNode ownsLeft with
              own | ⟨file, isShare, isFile, same⟩ <;>
            rcases owns_of_appended settled subset shares isTwin ownsRight with
              otherOwn | ⟨second, isSecondShare, isSecond, secondSame⟩
            · exact settled.family.owned (found isNode) (found isTwin) own otherOwn
            · have equal : some child = (none : Option PageId) :=
                settled.family.owned (found isNode) rfl own (secondSame ▸ live isSecond)
              cases equal
            · have equal : (none : Option PageId) = some other :=
                settled.family.owned rfl (found isTwin) (same ▸ live isFile) otherOwn
              cases equal
            · have equal := (above.leveled.once level level file second isFile isSecond
                (same.trans secondSame.symm)).2
              subst equal
              exact congrArg some (shares.apart isShare isSecondShare)

end Appended

/-! ## The whole flush -/

/-- Files of one level.  Of files that do not cross pivots a flush needs only that
the first one does not start below the page. -/
structure Subtree.Flushable (tree : Subtree) (level : Nat) (files : List FileMetaData) :
    Prop where
  inside : level < kNumLevels
  held : ∀ file ∈ files, file ∈ tree.buffer.lsmt.files level
  once : files.Nodup
  started : ∀ smallest ∈ (pivots tree.items).head?, ∀ file ∈ files.head?,
    smallest ≤ file.start

/-- What the loop leaves behind, child by child. -/
structure Appended (tree : Subtree) (routed : List (PageId × List FileMetaData))
    (done : Appending) : Prop where
  nodes : ∀ child, done.nodes child =
    (tree.nodes child).map (BufferNode.appended (shareOf routed child))
  tmpNodes : done.tmpNodes = routed.map Prod.fst
  flushed : FlushedTo tree.nodes (shareOf routed) done.flushed
  need : ∀ item ∈ done.childrenNeedCompaction, shareOf routed item.2 ≠ [] ∧
    (tree.nodes item.2).isSome = true
  distinct : (done.childrenNeedCompaction.map Prod.snd).Nodup

/-- What a flush leaves behind. -/
structure Flushes (level : Nat) (share : PageId → List FileMetaData)
    (flushed : List FileMetaData) (tree after : Subtree) : Prop where
  items : after.items = tree.items
  buffer : after.buffer.lsmt = tree.buffer.lsmt.finalizeRetrieval level flushed
  family : OnOneDisk after.disk (familyOf after.buffer.lsmt after.nodes)
  kept : after.buffer.lsmt.Kept tree.disk after.disk
  children : Carries (fun child before later => later.lsmt4compact = none ∧
    later.current.Shallow ∧
    Shrinks ((before.appended (share child)).current.onDisk tree.disk)
      (later.current.onDisk after.disk)) tree.nodes after.nodes

section Flush

variable {tree : Subtree} (settled : tree.Settled) {level : Nat} {files : List FileMetaData}
  (flushable : tree.Flushable level files)

include settled flushable

omit settled in
theorem flushFiles_routed :
    flushFilesToChildrenNoSplit tree.items files =
      some (Lib.cut flushLeavesTo tree.items files) := by
  refine flushFilesToChildrenNoSplit_eq ?_
  intro pivot child file single isHead
  refine flushable.started pivot ?_ file isHead
  rw [single]
  rfl

omit flushable in
theorem routed_distinct :
    ((Lib.cut flushLeavesTo tree.items files).map Prod.fst).Nodup :=
  settled.distinct.sublist (Lib.map_fst_cut_prefix tree.items files).sublist

theorem shares_routed :
    Shares files (shareOf (Lib.cut flushLeavesTo tree.items files)) :=
  shares_shareOf (routed_distinct settled) (Lib.flatMap_snd_cut settled.filled files)
    flushable.once

omit flushable in
theorem appendToChildren_appended :
    ∃ done, appendToChildren (pivots tree.items) (Lib.cut flushLeavesTo tree.items files)
        ⟨tree.nodes, [], [], [], []⟩ = .ok done ∧
      Appended tree (Lib.cut flushLeavesTo tree.items files) done := by
  have distinct := @routed_distinct tree settled files
  have enough : (Lib.cut flushLeavesTo tree.items files).length ≤
      (pivots tree.items).length := by
    have front : (Lib.cut flushLeavesTo tree.items files).map Prod.fst <+:
        tree.items.map Prod.snd := Lib.map_fst_cut_prefix tree.items files
    simpa [pivots] using front.length_le
  generalize Lib.cut flushLeavesTo tree.items files = routed at *
  obtain ⟨done, ran, appends⟩ : ∃ done,
      appendToChildren (pivots tree.items) routed ⟨tree.nodes, [], [], [], []⟩ = .ok done ∧
        Appends routed ⟨tree.nodes, [], [], [], []⟩ done :=
    appendToChildren_spec distinct enough (fun pair _ node isNode => settled.idle isNode)
  refine ⟨done, ran, ?_, appends.tmpNodes, ?_, ?_, ?_⟩
  · intro child
    by_cases isRouted : child ∈ routed.map Prod.fst
    · obtain ⟨pair, isPair, rfl⟩ := List.mem_map.mp isRouted
      rw [shareOf_of_mem distinct isPair]
      exact appends.nodes pair isPair
    · have same : done.nodes child = tree.nodes child := appends.others child isRouted
      rw [shareOf_of_not_mem isRouted, same]
      cases tree.nodes child <;> rfl
  · intro file
    have isFlushed : file ∈ done.flushed ↔
        ∃ pair ∈ routed, file ∈ buffered tree.nodes pair := by
      rw [appends.flushed, List.nil_append, List.mem_flatMap]
    rw [isFlushed]
    constructor
    · rintro ⟨pair, isPair, isBuffered⟩
      rw [buffered] at isBuffered
      split at isBuffered
      · rename_i isNode
        refine ⟨pair.1, isNode, ?_⟩
        rw [shareOf_of_mem distinct isPair]
        exact isBuffered
      · cases isBuffered
    · rintro ⟨child, isNode, isShare⟩
      obtain ⟨share, isPair, inside⟩ := (mem_shareOf_iff distinct).mp isShare
      refine ⟨(child, share), isPair, ?_⟩
      rw [buffered, if_pos isNode]
      exact inside
  · intro item member
    rcases appends.need item member with old | ⟨pair, isPair, same, full, isNode⟩
    · cases old
    · rw [← same, shareOf_of_mem distinct isPair]
      exact ⟨full, isNode⟩
  · exact appends.distinct List.nodup_nil (fun _ member => absurd member List.not_mem_nil)

/-- The three steps of a flush. -/
theorem flushes_of_flush {config : FlushConfig} {overflow : IndexItems} {after : Subtree}
    (ran : tree.flushFilesToChildrenNoSplit config level files = .ok (overflow, after)) :
    ∃ flushed, FlushedTo tree.nodes (shareOf (Lib.cut flushLeavesTo tree.items files))
        flushed ∧
      Flushes level (shareOf (Lib.cut flushLeavesTo tree.items files)) flushed tree after := by
  have shares := shares_routed settled flushable
  obtain ⟨done, isDone, appended⟩ := @appendToChildren_appended tree settled files
  rw [Subtree.flushFilesToChildrenNoSplit, flushFiles_routed flushable] at ran
  simp only [isDone] at ran
  generalize Lib.cut flushLeavesTo tree.items files = routed at *
  split at ran
  · cases ran
  rename_i compacted isCompacted
  cases ran
  refine ⟨done.flushed, appended.flushed, ?_⟩
  have family := family_appended settled flushable.held shares appended.flushed
    flushable.inside appended.nodes
  have sharePending : ∀ child node, shareOf routed child ≠ [] → done.nodes child = some node →
      node.lsmt4compact.isSome = true := by
    intro child node full isNode
    rw [appended.nodes child, Option.map_eq_some_iff] at isNode
    obtain ⟨old, -, rfl⟩ := isNode
    rw [BufferNode.appended, if_neg (fun empty => full (List.isEmpty_iff.mp empty))]
    rfl
  obtain ⟨compactedFamily, grown, prepares⟩ := compactChildren_spec family (by
    intro item member node isNode
    exact sharePending item.2 node (appended.need item member).1 isNode) isCompacted
  obtain ⟨lastFamily, parentKept, installs⟩ :=
    installChildren_spec tree.buffer.hasHotspot done.tmpNodes compactedFamily
  have parentSound := family.sound (show familyOf
    (tree.buffer.lsmt.finalizeRetrieval level done.flushed) done.nodes none = _ from rfl)
  refine ⟨rfl, rfl, lastFamily,
    (kept_of_extends parentSound.leveled grown).trans parentKept rfl, ?_⟩
  refine ⟨?_, ?_⟩
  · intro child isPage
    have isNone : done.nodes child = none := by
      rw [appended.nodes child, isPage]
      rfl
    exact installs.page child (prepares.page child isNone)
  · intro child node isNode
    have isAppended : done.nodes child = some (node.appended (shareOf routed child)) := by
      rw [appended.nodes child, isNode]
      rfl
    obtain ⟨middle, isMiddle, prepared⟩ := prepares.node child _ isAppended
    obtain ⟨later, isLater, installed⟩ := installs.node child middle isMiddle
    refine ⟨later, isLater, ?_, ?_, ?_⟩
    · by_cases visited : child ∈ done.tmpNodes
      · exact installed.idle visited
      · have idle : (node.appended (shareOf routed child)).lsmt4compact = none := by
          rw [appended.tmpNodes] at visited
          rw [shareOf_of_not_mem visited]
          exact settled.idle isNode
        have notPending := prepared.pending
        rw [idle] at notPending
        rw [installed.unvisited visited]
        exact Option.not_isSome_iff_eq_none.mp (by simp [notPending])
    · intro place beyond
      rw [installed.files]
      exact prepared.shallow (shallow_appended (settled.idle isNode) (settled.shallow isNode) _)
        place beyond
    · exact prepared.shrinks.trans installed.shrinks

/-- The level limits are such that `CompactLevel` stops in time. -/
structure Subtree.Limited (config : FlushConfig) (tree : Subtree) : Prop where
  nodes : ∀ {child node}, tree.nodes child = some node →
    0 < node.nodeLsmt.config.levelLimit ∧ node.nodeLsmt.config.levelLimit ≤ kNumLevels
  above : config.nodeLsmtLevelLimit ≤ kNumLevels

omit flushable in
/-- A child with a share is ready for a compaction. -/
theorem ready_of_appended {config : FlushConfig} (limited : tree.Limited config)
    {child : PageId} {node : BufferNode} (isNode : tree.nodes child = some node)
    {given : List FileMetaData} (full : given ≠ []) : (node.appended given).Ready := by
  have idle := settled.idle isNode
  have notEmpty : ¬ given.isEmpty = true := fun empty => full (List.isEmpty_iff.mp empty)
  have limits := limited.nodes isNode
  refine ⟨?_, ?_, ?_⟩
  · rw [BufferNode.appended, if_neg notEmpty]
    rfl
  · rw [(appended_current idle (settled.shallow isNode) given).1, Function.update_self]
    simp [full]
  · rw [BufferNode.appended, if_neg notEmpty]
    simpa [BufferNode.bufferAppendFiles, BufferNode.prepared, idle, Buffer.copy] using limits

/-- With such limits a flush is done. -/
theorem flush_runs {config : FlushConfig} (limited : tree.Limited config) :
    ∃ result, tree.flushFilesToChildrenNoSplit config level files = .ok result := by
  have shares := shares_routed settled flushable
  obtain ⟨done, isDone, appended⟩ := @appendToChildren_appended tree settled files
  have family := family_appended settled flushable.held shares appended.flushed
    flushable.inside appended.nodes
  obtain ⟨compacted, isCompacted⟩ : ∃ compacted, compactChildren config
      done.childrenNeedCompaction ⟨done.nodes, tree.disk, done.overflowChildren⟩ =
        .ok compacted := by
    refine compactChildren_runs family appended.distinct ?_ limited.above
    intro item member
    obtain ⟨full, isSome⟩ := appended.need item member
    obtain ⟨node, isNode⟩ := Option.isSome_iff_exists.mp isSome
    refine ⟨_, ?_, ready_of_appended settled limited isNode full⟩
    have placed := appended.nodes item.2
    rw [isNode] at placed
    exact placed
  rw [Subtree.flushFilesToChildrenNoSplit, flushFiles_routed flushable]
  simp only [isDone, isCompacted]
  exact ⟨_, rfl⟩

end Flush

/-! ## What is held -/

/-- The versions of a user key in one of the LSMTs. -/
def versionsAt (disk : Disk) (lsmts : Option PageId → Option Lsmt) (key : Slice)
    (here : Option PageId) : Set Entry :=
  {entry | ∃ lsmt, lsmts here = some lsmt ∧ entry ∈ (lsmt.onDisk disk).storedVersions key}

/-- The versions of a user key in the buffers, and those below them. -/
def Subtree.versions (tree : Subtree) (lower : Set Entry) (key : Slice) : Set Entry :=
  {entry | tree.Holds entry ∧ entry.userKey = key} ∪ {entry ∈ lower | entry.userKey = key}

theorem held_eq_iUnion (tree : Subtree) (key : Slice) :
    {entry | tree.Holds entry ∧ entry.userKey = key} =
      ⋃ here, versionsAt tree.disk (familyOf tree.buffer.lsmt tree.nodes) key here := by
  ext entry
  simp only [Set.mem_iUnion]
  constructor
  · rintro ⟨⟨here, lsmt, isLsmt, isStored⟩, isKey⟩
    exact ⟨here, lsmt, isLsmt, isStored, isKey⟩
  · rintro ⟨here, lsmt, isLsmt, isStored, isKey⟩
    exact ⟨⟨here, lsmt, isLsmt, isStored⟩, isKey⟩

theorem bounded_of_sound {lsmt : Lsmt} (sound : Sound lsmt) {entry : Entry}
    (isStored : lsmt.Stored entry) : entry.sequence < kMaxSequenceNumber := by
  obtain ⟨level, file, member, inside⟩ := isStored
  exact (sound.leveled.described level file member).bounded entry inside

/-- A flush, seen from outside. -/
structure Conserves (level : Nat) (routed : List (PageId × List FileMetaData))
    (tree after : Subtree) : Prop where
  settled : after.Settled
  /-- A file leaves the level if it has been routed to a child with a buffer. -/
  ordered : (after.buffer.lsmt.files level).Sublist (tree.buffer.lsmt.files level)
  left : ∀ file, file ∈ after.buffer.lsmt.files level ↔
    file ∈ tree.buffer.lsmt.files level ∧
      ∀ child, Lib.Deals routed child file → tree.nodes child = none
  levels : ∀ upper, upper ≠ level → after.buffer.lsmt.files upper = tree.buffer.lsmt.files upper
  tables : ∀ upper, ∀ file ∈ after.buffer.lsmt.files upper,
    after.disk.tables file.number = tree.disk.tables file.number
  /-- Its entries are in the buffer of that child or hidden there. -/
  arrived : ∀ child file, Lib.Deals routed child file → (tree.nodes child).isSome = true →
    ∃ node, after.nodes child = some node ∧ ∀ entry ∈ tree.disk.tables file.number,
      ∃ found, (node.nodeLsmt.lsmt.onDisk after.disk).Stored found ∧
        found.userKey = entry.userKey ∧
        (found = entry ∨ entry.sequence < found.sequence)
  /-- A child has what it had and what has been routed to it. -/
  only : ∀ child later, after.nodes child = some later →
    ∃ node, tree.nodes child = some node ∧
      ∀ entry, (later.nodeLsmt.lsmt.onDisk after.disk).Stored entry →
        (node.nodeLsmt.lsmt.onDisk tree.disk).Stored entry ∨
          ∃ file, Lib.Deals routed child file ∧ entry ∈ tree.disk.tables file.number
  newest : ∀ lower key found,
    Lib.Newest Entry.sequence (after.versions lower key) found ↔
      Lib.Newest Entry.sequence (tree.versions lower key) found

/-- The converse of `Carries.node`. -/
theorem Carries.exists_before {related : PageId → BufferNode → BufferNode → Prop}
    {before after : PageId → Option BufferNode} (carries : Carries related before after)
    {child : PageId} {later : BufferNode} (isLater : after child = some later) :
    ∃ node, before child = some node ∧ related child node later := by
  cases isNode : before child with
  | none =>
      rw [carries.page child isNode] at isLater
      cases isLater
  | some node =>
      obtain ⟨found, isFound, isRelated⟩ := carries.node child node isNode
      rw [isLater] at isFound
      cases isFound
      exact ⟨node, rfl, isRelated⟩

section Conserve

variable {tree after : Subtree} (settled : tree.Settled) {level : Nat}
  {files flushed : List FileMetaData} (flushable : tree.Flushable level files)
  {share : PageId → List FileMetaData} (shares : Shares files share)
  (isFlushed : FlushedTo tree.nodes share flushed)

/-- The LSMTs once the files are in the buffers of the children. -/
def appendedFamily (tree : Subtree) (level : Nat) (share : PageId → List FileMetaData)
    (flushed : List FileMetaData) : Option PageId → Option Lsmt :=
  familyOf (tree.buffer.lsmt.finalizeRetrieval level flushed)
    (fun child => (tree.nodes child).map (BufferNode.appended (share child)))

theorem appendedFamily_some {child : PageId} {lsmt : Lsmt} :
    appendedFamily tree level share flushed (some child) = some lsmt ↔
      ∃ node, tree.nodes child = some node ∧ (node.appended (share child)).current = lsmt := by
  rw [appendedFamily, familyOf, Option.map_map, Option.map_eq_some_iff]
  rfl

include settled flushable shares isFlushed

theorem sound_appendedFamily {here : Option PageId} {lsmt : Lsmt}
    (isLsmt : appendedFamily tree level share flushed here = some lsmt) :
    Sound (lsmt.onDisk tree.disk) :=
  (family_appended settled flushable.held shares isFlushed flushable.inside
    (fun _ => rfl)).sound isLsmt

/-- What moves stays in the subtree. -/
theorem iUnion_appendedFamily (key : Slice) :
    (⋃ here, versionsAt tree.disk (appendedFamily tree level share flushed) key here) =
      ⋃ here, versionsAt tree.disk (familyOf tree.buffer.lsmt tree.nodes) key here := by
  have among : ∀ file ∈ flushed, file ∈ files := by
    intro file member
    obtain ⟨child, -, isShare⟩ := (isFlushed file).mp member
    exact (shares.mem_iff file).mpr ⟨child, isShare⟩
  ext entry
  simp only [Set.mem_iUnion]
  constructor
  · rintro ⟨here, lsmt, isLsmt, isStored, isKey⟩
    cases here with
    | none =>
        cases isLsmt
        obtain ⟨upper, file, member, inside⟩ := isStored
        have old := ((LeafFlush.mem_finalizeRetrieval_iff flushable.inside).mp member).1
        exact ⟨none, _, rfl, ⟨upper, file, old, inside⟩, isKey⟩
    | some child =>
        obtain ⟨node, isNode, rfl⟩ := appendedFamily_some.mp isLsmt
        rcases (stored_appended_iff (settled.idle isNode) (settled.shallow isNode)).mp isStored with
          own | ⟨file, isShare, inside⟩
        · refine ⟨some child, node.current, ?_, own, isKey⟩
          rw [familyOf, isNode]
          rfl
        · have isFile := flushable.held file ((shares.mem_iff file).mpr ⟨child, isShare⟩)
          exact ⟨none, _, rfl, ⟨level, file, isFile, inside⟩, isKey⟩
  · rintro ⟨here, lsmt, isLsmt, isStored, isKey⟩
    cases here with
    | none =>
        cases isLsmt
        obtain ⟨upper, file, member, inside⟩ := isStored
        by_cases gone : upper = level ∧ file ∈ flushed
        · obtain ⟨child, isSome, isShare⟩ := (isFlushed file).mp gone.2
          obtain ⟨node, isNode⟩ := Option.isSome_iff_exists.mp isSome
          exact ⟨some child, _, appendedFamily_some.mpr ⟨node, isNode, rfl⟩,
            (stored_appended_iff (settled.idle isNode) (settled.shallow isNode)).mpr
              (.inr ⟨file, isShare, inside⟩), isKey⟩
        · refine ⟨none, _, rfl, ⟨upper, file, ?_, inside⟩, isKey⟩
          refine (LeafFlush.mem_finalizeRetrieval_iff flushable.inside).mpr ⟨member, ?_⟩
          rintro rfl isNumber
          have isFile := (number_mem_map_iff settled flushable.held among member).mp isNumber
          exact gone ⟨rfl, isFile⟩
    | some child =>
        rw [familyOf, Option.map_eq_some_iff] at isLsmt
        obtain ⟨node, isNode, rfl⟩ := isLsmt
        exact ⟨some child, _, appendedFamily_some.mpr ⟨node, isNode, rfl⟩,
          (stored_appended_iff (settled.idle isNode) (settled.shallow isNode)).mpr (.inl isStored),
          isKey⟩

variable (flushes : Flushes level share flushed tree after)

include flushes

omit settled flushable shares isFlushed in
/-- What each LSMT has afterwards. -/
theorem versionsAt_shrinks (key : Slice) (here : Option PageId) :
    versionsAt after.disk (familyOf after.buffer.lsmt after.nodes) key here ⊆
        versionsAt tree.disk (appendedFamily tree level share flushed) key here ∧
      ∀ found, Lib.Newest Entry.sequence
          (versionsAt after.disk (familyOf after.buffer.lsmt after.nodes) key here) found ↔
        Lib.Newest Entry.sequence
          (versionsAt tree.disk (appendedFamily tree level share flushed) key here) found := by
  have only : ∀ {disk : Disk} {lsmts : Option PageId → Option Lsmt} {lsmt : Lsmt},
      lsmts here = some lsmt →
      versionsAt disk lsmts key here = (lsmt.onDisk disk).storedVersions key := by
    intro disk lsmts lsmt isLsmt
    ext entry
    simp [versionsAt, isLsmt]
  cases here with
  | none =>
      have kept := flushes.kept.storedVersions key
      have isAfter : familyOf after.buffer.lsmt after.nodes none =
          some (tree.buffer.lsmt.finalizeRetrieval level flushed) := by
        rw [← flushes.buffer]
        rfl
      rw [flushes.buffer] at kept
      rw [only isAfter, only (show appendedFamily tree level share flushed none = _ from rfl),
        kept]
      exact ⟨subset_rfl, fun _ => Iff.rfl⟩
  | some child =>
      cases isNode : tree.nodes child with
      | none =>
          have isPage := flushes.children.page child isNode
          have empty : versionsAt after.disk (familyOf after.buffer.lsmt after.nodes) key
              (some child) = ∅ := by
            simp [versionsAt, familyOf, isPage]
          have wasEmpty : versionsAt tree.disk (appendedFamily tree level share flushed) key
              (some child) = ∅ := by
            simp [versionsAt, appendedFamily, familyOf, isNode]
          rw [empty, wasEmpty]
          exact ⟨subset_rfl, fun _ => Iff.rfl⟩
      | some node =>
          obtain ⟨later, isLater, -, -, shrinks⟩ := flushes.children.node child node isNode
          have isAfter : familyOf after.buffer.lsmt after.nodes (some child) =
              some later.current := by
            rw [familyOf, isLater]
            rfl
          rw [only isAfter, only (appendedFamily_some.mpr ⟨node, isNode, rfl⟩)]
          refine ⟨?_, shrinks.newest key⟩
          rintro entry ⟨isStored, isKey⟩
          exact ⟨shrinks.stored entry isStored, isKey⟩

theorem held_subset_of_flushes {entry : Entry} (holds : after.Holds entry) :
    tree.Holds entry := by
  have inside : entry ∈ {other | after.Holds other ∧ other.userKey = entry.userKey} :=
    ⟨holds, rfl⟩
  rw [held_eq_iUnion, Set.mem_iUnion] at inside
  obtain ⟨here, isHere⟩ := inside
  have moved := (versionsAt_shrinks flushes entry.userKey here).1 isHere
  have whole := Set.mem_iUnion.mpr ⟨here, moved⟩
  rw [iUnion_appendedFamily settled flushable shares isFlushed, ← held_eq_iUnion] at whole
  exact whole.1

theorem newest_of_flushes (lower : Set Entry) (key : Slice) (found : Entry) :
    Lib.Newest Entry.sequence (after.versions lower key) found ↔
      Lib.Newest Entry.sequence (tree.versions lower key) found := by
  have bounded : ∀ here, ∀ entry ∈ versionsAt tree.disk
      (appendedFamily tree level share flushed) key here,
      entry.sequence < kMaxSequenceNumber := by
    rintro here entry ⟨lsmt, isLsmt, isStored, -⟩
    exact bounded_of_sound (sound_appendedFamily settled flushable shares isFlushed isLsmt)
      isStored
  rw [Subtree.versions, Subtree.versions, held_eq_iUnion, held_eq_iUnion,
    ← iUnion_appendedFamily settled flushable shares isFlushed]
  refine @Lib.newest_union_congr _ _ _ _ _ _ kMaxSequenceNumber ?_ ?_ ?_
  · intro entry member
    obtain ⟨here, inside⟩ := Set.mem_iUnion.mp member
    exact bounded here entry inside
  · exact Set.iUnion_mono (fun here => (versionsAt_shrinks flushes key here).1)
  · intro entry
    exact Lib.newest_iUnion_congr bounded
      (fun here => (versionsAt_shrinks flushes key here).1)
      (fun here => (versionsAt_shrinks flushes key here).2)

theorem settled_of_flushes : after.Settled where
  filled := by
    rw [flushes.items]
    exact settled.filled
  distinct := by
    rw [flushes.items]
    exact settled.distinct
  idle isLater := by
    obtain ⟨node, -, idle, -⟩ := flushes.children.exists_before isLater
    exact idle
  shallow isLater := by
    obtain ⟨node, -, -, shallow, -⟩ := flushes.children.exists_before isLater
    exact shallow
  family := flushes.family
  named left right isLeft isRight := settled.named left right
    (held_subset_of_flushes settled flushable shares isFlushed flushes isLeft)
    (held_subset_of_flushes settled flushable shares isFlushed flushes isRight)

/-- A child has the newest versions of what it has been given. -/
theorem arrived_of_flushes {child : PageId} {node : BufferNode}
    (isNode : tree.nodes child = some node) {file : FileMetaData} (isShare : file ∈ share child) :
    ∃ later, after.nodes child = some later ∧ ∀ entry ∈ tree.disk.tables file.number,
      ∃ found, (later.nodeLsmt.lsmt.onDisk after.disk).Stored found ∧
        found.userKey = entry.userKey ∧ (found = entry ∨ entry.sequence < found.sequence) := by
  obtain ⟨later, isLater, idle, -, shrinks⟩ := flushes.children.node child node isNode
  have sound : Sound ((node.appended (share child)).current.onDisk tree.disk) :=
    sound_appendedFamily settled flushable shares isFlushed
      (appendedFamily_some.mpr ⟨node, isNode, rfl⟩)
  refine ⟨later, isLater, ?_⟩
  intro entry inside
  rw [BufferNode.current_of_idle idle] at shrinks
  have isStored : ((node.appended (share child)).current.onDisk tree.disk).Stored entry :=
    (stored_appended_iff (settled.idle isNode) (settled.shallow isNode)).mpr
      (.inr ⟨file, isShare, inside⟩)
  obtain ⟨top, isTop⟩ : ∃ top, Lib.Newest Entry.sequence
      (((node.appended (share child)).current.onDisk tree.disk).storedVersions entry.userKey)
      top :=
    Lib.exists_newest_of_lt (fun _ member => bounded_of_sound sound member.1)
      ⟨entry, isStored, rfl⟩
  obtain ⟨stays, sameKey⟩ := ((shrinks.newest entry.userKey top).mpr isTop).member
  refine ⟨top, stays, sameKey, ?_⟩
  rcases (isTop.greatest entry ⟨isStored, rfl⟩).eq_or_lt with same | less
  · exact .inl (sound.plain.named top entry isTop.member.1 isStored sameKey same.symm)
  · exact .inr less

omit flushable isFlushed shares in
theorem only_of_flushes {child : PageId} {later : BufferNode}
    (isLater : after.nodes child = some later) :
    ∃ node, tree.nodes child = some node ∧
      ∀ entry, (later.nodeLsmt.lsmt.onDisk after.disk).Stored entry →
        (node.nodeLsmt.lsmt.onDisk tree.disk).Stored entry ∨
          ∃ file ∈ share child, entry ∈ tree.disk.tables file.number := by
  obtain ⟨node, isNode, idle, -, shrinks⟩ := flushes.children.exists_before isLater
  refine ⟨node, isNode, ?_⟩
  intro entry isStored
  rw [← BufferNode.current_of_idle idle] at isStored
  have moved := (stored_appended_iff (settled.idle isNode) (settled.shallow isNode)).mp
    (shrinks.stored entry isStored)
  rwa [BufferNode.current_of_idle (settled.idle isNode)] at moved

/-- Which files the level keeps. -/
theorem left_of_flushes (file : FileMetaData) :
    file ∈ after.buffer.lsmt.files level ↔ file ∈ tree.buffer.lsmt.files level ∧
      ∀ child, file ∈ share child → tree.nodes child = none := by
  have among : ∀ file ∈ flushed, file ∈ files := by
    intro file member
    obtain ⟨child, -, isShare⟩ := (isFlushed file).mp member
    exact (shares.mem_iff file).mpr ⟨child, isShare⟩
  rw [flushes.buffer, LeafFlush.mem_finalizeRetrieval_iff flushable.inside]
  refine and_congr_right ?_
  intro member
  rw [number_mem_map_iff settled flushable.held among member, isFlushed file]
  simp only [not_exists, not_and, true_implies]
  refine forall_congr' ?_
  intro child
  rw [← Option.not_isSome_iff_eq_none]
  tauto

end Conserve

/-- A child without files. -/
def emptyChild : BufferNode where
  page := (({ Slotted.pageInit 1 fun _ => 0 with isLeaf := true }).writeEntryAt 0
    ([97], .value [])).addItem
  nodeLsmt := ⟨Checked.smallBuffer, Lsmt.empty, true⟩
  lsmt4compact := none
  tmpMin := []

/-- The first child has a buffer, the second one is a page. -/
def twoChildren : Subtree where
  items := [([97], 1), ([98], 2)]
  buffer := ⟨Checked.smallBuffer, fourFiles, true⟩
  nodes := fun child => if child = 1 then some emptyChild else none
  disk := fourFiles.disk

theorem familyOf_twoChildren {here : Option PageId} {lsmt : Lsmt}
    (isLsmt : familyOf twoChildren.buffer.lsmt twoChildren.nodes here = some lsmt) :
    here = none ∧ lsmt = fourFiles ∨ here = some 1 ∧ lsmt = Lsmt.empty := by
  cases here with
  | none =>
      cases isLsmt
      exact .inl ⟨rfl, rfl⟩
  | some child =>
      by_cases first : child = 1
      · subst first
        cases isLsmt
        exact .inr ⟨rfl, rfl⟩
      · simp [familyOf, twoChildren, first] at isLsmt

theorem nodes_twoChildren {child : PageId} {node : BufferNode}
    (isNode : twoChildren.nodes child = some node) : node = emptyChild := by
  by_cases first : child = 1
  · subst first
    cases isNode
    rfl
  · simp [twoChildren, first] at isNode

theorem settled_twoChildren : twoChildren.Settled := by
  have nothing : ∀ {entry : Entry}, ¬ (Lsmt.empty.onDisk fourFiles.disk).Stored entry := by
    rintro entry ⟨level, file, member, -⟩
    cases member
  have noNumber : ∀ {number : Nat}, ¬ Lsmt.empty.Owns number := by
    rintro number (live | obsolete)
    · exact live (fun _ _ member => absurd member List.not_mem_nil)
    · cases obsolete
  have aboveSound : Sound fourFiles :=
    ⟨leveled_fourFiles, plain_fourFiles, fun _ obsolete => absurd obsolete List.not_mem_nil⟩
  have emptySound : Sound (Lsmt.empty.onDisk fourFiles.disk) :=
    ⟨⟨Leveled.empty.apart, Leveled.empty.once, Leveled.empty.nodup,
        fun _ _ member => absurd member List.not_mem_nil,
        fun _ _ member => absurd member List.not_mem_nil⟩,
      ⟨fun _ _ isLeft => absurd isLeft nothing, fun _ isStored => absurd isStored nothing⟩,
      fun _ obsolete => absurd obsolete List.not_mem_nil⟩
  have holds : ∀ {entry}, twoChildren.Holds entry → fourFiles.Stored entry := by
    rintro entry ⟨here, lsmt, isLsmt, isStored⟩
    rcases familyOf_twoChildren isLsmt with ⟨-, rfl⟩ | ⟨-, rfl⟩
    · exact isStored
    · exact absurd isStored nothing
  refine ⟨by decide, by decide, ?_, ?_, ⟨?_, ?_⟩, ?_⟩
  · intro child node isNode
    rw [nodes_twoChildren isNode]
    rfl
  · intro child node isNode
    rw [nodes_twoChildren isNode]
    exact fun _ _ => rfl
  · intro here lsmt isLsmt
    rcases familyOf_twoChildren isLsmt with ⟨-, rfl⟩ | ⟨-, rfl⟩
    · exact aboveSound
    · exact emptySound
  · intro here there left right number isLeft isRight ownsLeft ownsRight
    rcases familyOf_twoChildren isLeft with ⟨rfl, rfl⟩ | ⟨rfl, rfl⟩
    · rcases familyOf_twoChildren isRight with ⟨rfl, rfl⟩ | ⟨rfl, rfl⟩
      · rfl
      · exact absurd ownsRight noNumber
    · exact absurd ownsLeft noNumber
  · intro left right isLeft isRight
    exact plain_fourFiles.named left right (holds isLeft) (holds isRight)

end AhaTree

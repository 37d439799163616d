import AhaTree.InternalKey
import AhaTree.Lib.Merge
import Mathlib.Data.Finset.Max

/-!
# The visible map

Entries are versions of user keys.  A scan at a sequence number may see, of each
user key, the newest version up to that number, unless it is a deletion.  On one
sorted list of versions a single pass shows this map.
-/

namespace AhaTree

structure Entry where
  key : InternalKey
  value : Slice
  deriving DecidableEq, Repr

namespace Entry

def userKey (entry : Entry) : Slice := entry.key.userKey

def sequence (entry : Entry) : Nat := entry.key.sequence

/-- The order in which the merging iterator delivers entries. -/
def before (left right : Entry) : Bool :=
  (left.key.compare right.key).isLT

end Entry

/-- The newest version of the user key with a sequence number up to `seqNo` is
this value. -/
def Visible (entries : List Entry) (seqNo : Nat) (userKey value : Slice) : Prop :=
  ∃ entry ∈ entries, entry.userKey = userKey ∧ entry.value = value ∧
    entry.key.type = .kTypeValue ∧ entry.sequence ≤ seqNo ∧
    ∀ other ∈ entries, other.userKey = userKey → other.sequence ≤ seqNo →
      other.sequence ≤ entry.sequence

/-- No version of its user key up to `seqNo` is newer. -/
structure Newest (entries : List Entry) (seqNo : Nat) (entry : Entry) : Prop where
  stored : entry ∈ entries
  seen : entry.sequence ≤ seqNo
  newest : ∀ other ∈ entries, other.userKey = entry.userKey → other.sequence ≤ seqNo →
    other.sequence ≤ entry.sequence

/-- Every user key is stored once, as a value the scan may see. -/
structure StoredOnceAndLive (entries : List Entry) (seqNo : Nat) : Prop where
  once : (entries.map Entry.userKey).Nodup
  live : ∀ entry ∈ entries,
    entry.key.type = .kTypeValue ∧ entry.sequence ≤ seqNo

/-! ## The order of the entries -/

namespace Entry

theorem before_iff {left right : Entry} :
    left.before right = true ↔ left.userKey < right.userKey ∨
      (left.userKey = right.userKey ∧ right.key.pack < left.key.pack) := by
  rw [before, Ordering.isLT_iff_eq_lt, InternalKey.compare_eq_lt]
  rfl

theorem not_before_iff {left right : Entry} :
    left.before right = false ↔ right.userKey < left.userKey ∨
      (right.userKey = left.userKey ∧ left.key.pack ≤ right.key.pack) := by
  rw [Bool.eq_false_iff, ne_eq, before_iff, not_or, not_lt, not_and, not_lt]
  constructor
  · rintro ⟨order, packed⟩
    rcases lt_or_eq_of_le order with less | same
    · exact .inl less
    · exact .inr ⟨same, packed same.symm⟩
  · rintro (less | ⟨same, packed⟩)
    · exact ⟨less.le, fun same => absurd same less.ne'⟩
    · exact ⟨same.le, fun _ => packed⟩

theorem before_strictOrder : Lib.StrictOrder before where
  asymm left right first := by
    rw [before_iff] at first
    rw [not_before_iff]
    exact first.imp_right (fun ⟨same, packed⟩ => ⟨same, packed.le⟩)
  trans low mid high lowMid midHigh := by
    rw [not_before_iff] at *
    rcases lowMid with lowLess | ⟨lowSame, lowPacked⟩
    · rcases midHigh with midLess | ⟨midSame, -⟩
      · exact .inl (lowLess.trans midLess)
      · exact .inl (midSame ▸ lowLess)
    · rw [lowSame]
      exact midHigh.imp_right (fun ⟨same, packed⟩ => ⟨same, packed.trans lowPacked⟩)

theorem sequence_le_of_pack_le {left right : Entry}
    (packed : left.key.pack ≤ right.key.pack) : left.sequence ≤ right.sequence := by
  have type := right.key.type.code_lt
  simp only [InternalKey.pack, sequence] at *
  omega

end Entry

/-! ## The newest versions -/

section Newest

variable {entries left : List Entry} {seqNo : Nat} {entry other : Entry}

theorem visible_iff_newest {userKey value : Slice} : Visible entries seqNo userKey value ↔
    ∃ entry, Newest entries seqNo entry ∧ entry.userKey = userKey ∧ entry.value = value ∧
      entry.key.type = .kTypeValue := by
  constructor
  · rintro ⟨entry, stored, rfl, sameValue, kind, seen, newest⟩
    exact ⟨entry, ⟨stored, seen, newest⟩, rfl, sameValue, kind⟩
  · rintro ⟨entry, ⟨stored, seen, newest⟩, rfl, sameValue, kind⟩
    exact ⟨entry, stored, rfl, sameValue, kind, seen, newest⟩

theorem exists_newest (stored : entry ∈ entries) (seen : entry.sequence ≤ seqNo) :
    ∃ newest, Newest entries seqNo newest ∧ newest.userKey = entry.userKey := by
  have mem : ∀ other, other ∈ (entries.filter fun other =>
      other.userKey = entry.userKey ∧ other.sequence ≤ seqNo).toFinset ↔
        other ∈ entries ∧ other.userKey = entry.userKey ∧ other.sequence ≤ seqNo := by
    intro other
    rw [List.mem_toFinset, List.mem_filter, decide_eq_true_eq]
  obtain ⟨newest, isNewest, greatest⟩ := Finset.exists_max_image _ Entry.sequence
    ⟨entry, (mem entry).mpr ⟨stored, rfl, seen⟩⟩
  obtain ⟨isStored, sameKey, isSeen⟩ := (mem newest).mp isNewest
  refine ⟨newest, ⟨isStored, isSeen, fun other otherStored otherKey otherSeen => ?_⟩, sameKey⟩
  exact greatest other ((mem other).mpr ⟨otherStored, otherKey.trans sameKey, otherSeen⟩)

theorem Newest.of_subset (newest : Newest entries seqNo entry) (subset : left ⊆ entries)
    (stored : entry ∈ left) : Newest left seqNo entry :=
  ⟨stored, newest.seen, fun other member => newest.newest other (subset member)⟩

/-- Where a user key and a sequence number name one entry there is one newest version. -/
theorem Newest.unique (named : ∀ left ∈ entries, ∀ right ∈ entries,
      left.userKey = right.userKey → left.sequence = right.sequence → left = right)
    (newest : Newest entries seqNo entry) (otherNewest : Newest entries seqNo other)
    (sameKey : entry.userKey = other.userKey) : entry = other := by
  refine named entry newest.stored other otherNewest.stored sameKey (Nat.le_antisymm ?_ ?_)
  · exact otherNewest.newest entry newest.stored sameKey newest.seen
  · exact newest.newest other otherNewest.stored sameKey.symm otherNewest.seen

end Newest

/-- Only the versions of the key itself matter. -/
theorem visible_congr {left right : List Entry} {seqNo : Nat} {key value : Slice}
    (same : ∀ entry, entry.userKey = key → (entry ∈ left ↔ entry ∈ right)) :
    Visible left seqNo key value ↔ Visible right seqNo key value := by
  have transfer : ∀ {front behind : List Entry},
      (∀ entry, entry.userKey = key → (entry ∈ front ↔ entry ∈ behind)) →
      Visible front seqNo key value → Visible behind seqNo key value := by
    rintro front behind agree ⟨entry, member, sameKey, sameValue, kind, seen, newest⟩
    exact ⟨entry, (agree entry sameKey).mp member, sameKey, sameValue, kind, seen,
      fun other isOther otherKey => newest other ((agree other otherKey).mpr isOther)
        otherKey⟩
  exact ⟨transfer same, transfer (fun entry sameKey => (same entry sameKey).symm)⟩

/-! ## A part of the entries -/

/-- The newest version of a user key is a deletion of which no version is left, or the
newest one that is left says the same. -/
def Agrees (left : List Entry) (seqNo : Nat) (entry : Entry) : Prop :=
  (entry.key.type = .kTypeValue → ∃ other, Newest left seqNo other ∧
      other.userKey = entry.userKey) ∧
    ∀ other, Newest left seqNo other → other.userKey = entry.userKey →
      other.key.type = entry.key.type ∧
        (entry.key.type = .kTypeValue → other.value = entry.value)

section Part

variable {entries left : List Entry} {seqNo : Nat}

theorem Newest.visible {entry : Entry} (newest : Newest entries seqNo entry)
    (kind : entry.key.type = .kTypeValue) :
    Visible entries seqNo entry.userKey entry.value :=
  visible_iff_newest.mpr ⟨entry, newest, rfl, rfl, kind⟩

/-- A part of the entries has the visible map from `low` on exactly if what is missing does
not matter, and what is below `low` is hidden. -/
theorem visible_left_iff (subset : left ⊆ entries)
    (named : ∀ front ∈ entries, ∀ behind ∈ entries, front.userKey = behind.userKey →
      front.sequence = behind.sequence → front = behind) (seqNo : Nat) (low : Slice) :
    (∀ userKey value, Visible left seqNo userKey value ↔
        low ≤ userKey ∧ Visible entries seqNo userKey value) ↔
      (∀ entry, Newest entries seqNo entry → low ≤ entry.userKey → entry ∉ left →
        Agrees left seqNo entry) ∧
      ∀ entry, Newest left seqNo entry → entry.userKey < low →
        entry.key.type = .kTypeDeletion := by
  have namedLeft : ∀ front ∈ left, ∀ behind ∈ left, front.userKey = behind.userKey →
      front.sequence = behind.sequence → front = behind :=
    fun front isFront behind isBehind => named front (subset isFront) behind (subset isBehind)
  constructor
  · intro same
    refine ⟨fun entry newest inRange _ => ⟨fun kind => ?_, fun other isOther sameKey => ?_⟩,
      fun entry newest below => ?_⟩
    · obtain ⟨other, isOther, sameKey, -, -⟩ := visible_iff_newest.mp
        ((same _ _).mpr ⟨inRange, newest.visible kind⟩)
      exact ⟨other, isOther, sameKey⟩
    · cases kind : entry.key.type with
      | kTypeValue =>
          obtain ⟨shown, isShown, shownKey, shownValue, shownKind⟩ := visible_iff_newest.mp
            ((same _ _).mpr ⟨inRange, newest.visible kind⟩)
          obtain rfl := isOther.unique namedLeft isShown (sameKey.trans shownKey.symm)
          exact ⟨shownKind, fun _ => shownValue⟩
      | kTypeDeletion =>
          refine ⟨?_, fun impossible => by cases impossible⟩
          cases otherKind : other.key.type with
          | kTypeDeletion => rfl
          | kTypeValue =>
              obtain ⟨shown, isShown, shownKey, -, shownKind⟩ := visible_iff_newest.mp
                ((same _ _).mp (isOther.visible otherKind)).2
              obtain rfl := newest.unique named isShown (sameKey.symm.trans shownKey.symm)
              cases kind.symm.trans shownKind
    · cases kind : entry.key.type with
      | kTypeDeletion => rfl
      | kTypeValue =>
          exact absurd ((same _ _).mp (newest.visible kind)).1 (not_le.mpr below)
  · rintro ⟨passed, early⟩ userKey value
    constructor
    · intro visible
      obtain ⟨entry, newest, rfl, rfl, kind⟩ := visible_iff_newest.mp visible
      have inRange : low ≤ entry.userKey := by
        refine not_lt.mp fun below => ?_
        cases kind.symm.trans (early entry newest below)
      obtain ⟨whole, isWhole, sameKey⟩ := exists_newest (subset newest.stored) newest.seen
      refine ⟨inRange, ?_⟩
      rw [← sameKey]
      by_cases stored : whole ∈ left
      · obtain rfl := (isWhole.of_subset subset stored).unique namedLeft newest sameKey
        exact isWhole.visible kind
      · obtain ⟨-, agrees⟩ := passed whole isWhole (inRange.trans_eq sameKey.symm) stored
        obtain ⟨sameKind, sameValue⟩ := agrees entry newest sameKey.symm
        have wholeKind := sameKind.symm.trans kind
        rw [sameValue wholeKind]
        exact isWhole.visible wholeKind
    · rintro ⟨inRange, visible⟩
      obtain ⟨entry, newest, rfl, rfl, kind⟩ := visible_iff_newest.mp visible
      by_cases stored : entry ∈ left
      · exact (newest.of_subset subset stored).visible kind
      · obtain ⟨substitute, agrees⟩ := passed entry newest inRange stored
        obtain ⟨other, isOther, sameKey⟩ := substitute kind
        obtain ⟨sameKind, sameValue⟩ := agrees other isOther sameKey
        rw [← sameKey, ← sameValue kind]
        exact isOther.visible (sameKind.trans kind)

end Part

/-! ## A scan of one sorted list -/

/-- What a scan shows of a sorted list when it hides versions up to the user key
`skip`. -/
def shown (seqNo : Nat) : Option Slice → List Entry → List (Slice × Slice)
  | _, [] => []
  | skip, entry :: stream =>
      if entry.sequence ≤ seqNo then
        match entry.key.type with
        | .kTypeDeletion => shown seqNo (some entry.userKey) stream
        | .kTypeValue =>
            if skip.any (fun hidden => (Slice.compare entry.userKey hidden).isLE) then
              shown seqNo skip stream
            else (entry.userKey, entry.value) ::
              shown seqNo (some entry.userKey) stream
      else shown seqNo skip stream

/-! ## What the list scan shows -/

section Shown

variable {seqNo : Nat} {first : Entry} {stream : List Entry} {userKey value : Slice}

/-- A sorted list in which a user key and a sequence number name one entry. -/
structure Sorted (stream : List Entry) : Prop where
  ascending : stream.Pairwise (fun front behind => behind.before front = false)
  named : ∀ left ∈ stream, ∀ right ∈ stream, left.userKey = right.userKey →
    left.sequence = right.sequence → left = right

theorem Sorted.tail (sorted : Sorted (first :: stream)) : Sorted stream where
  ascending := (List.pairwise_cons.mp sorted.ascending).2
  named left isLeft right isRight :=
    sorted.named left (List.mem_cons_of_mem _ isLeft) right
      (List.mem_cons_of_mem _ isRight)

theorem Sorted.head_le (sorted : Sorted (first :: stream)) {entry : Entry}
    (member : entry ∈ first :: stream) : first.userKey ≤ entry.userKey := by
  rcases List.mem_cons.mp member with rfl | later
  · exact le_rfl
  · have order := (List.pairwise_cons.mp sorted.ascending).1 entry later
    rw [Entry.not_before_iff] at order
    rcases order with less | ⟨same, -⟩
    · exact less.le
    · exact same.le

/-- The first entry of a sorted list is the newest version of its user key. -/
theorem Sorted.head_newest (sorted : Sorted (first :: stream)) {entry : Entry}
    (member : entry ∈ first :: stream) (same : entry.userKey = first.userKey) :
    entry.sequence ≤ first.sequence := by
  rcases List.mem_cons.mp member with rfl | later
  · exact le_rfl
  · have order := (List.pairwise_cons.mp sorted.ascending).1 entry later
    rw [Entry.not_before_iff] at order
    rcases order with less | ⟨-, packed⟩
    · exact absurd same less.ne'
    · exact Entry.sequence_le_of_pack_le packed

/-- Entries that the scan may not see, or of other user keys, do not matter. -/
theorem visible_cons_iff (apart : first.userKey = userKey → seqNo < first.sequence) :
    Visible (first :: stream) seqNo userKey value ↔
      Visible stream seqNo userKey value := by
  constructor
  · rintro ⟨entry, member, sameKey, sameValue, kind, seen, newest⟩
    rcases List.mem_cons.mp member with rfl | later
    · exact absurd seen (Nat.not_le.mpr (apart sameKey))
    · exact ⟨entry, later, sameKey, sameValue, kind, seen,
        fun other isOther => newest other (List.mem_cons_of_mem _ isOther)⟩
  · rintro ⟨entry, later, sameKey, sameValue, kind, seen, newest⟩
    refine ⟨entry, List.mem_cons_of_mem _ later, sameKey, sameValue, kind, seen, ?_⟩
    intro other isOther otherKey otherSeen
    rcases List.mem_cons.mp isOther with rfl | otherLater
    · exact absurd otherSeen (Nat.not_le.mpr (apart otherKey))
    · exact newest other otherLater otherKey otherSeen

/-- A version the scan may see decides about its user key when it comes first. -/
theorem Sorted.visible_head_iff (sorted : Sorted (first :: stream))
    (seen : first.sequence ≤ seqNo) :
    Visible (first :: stream) seqNo first.userKey value ↔
      first.key.type = .kTypeValue ∧ first.value = value := by
  constructor
  · rintro ⟨entry, member, sameKey, sameValue, kind, -, newest⟩
    have below := sorted.head_newest member sameKey
    have above := newest first List.mem_cons_self rfl seen
    obtain rfl := sorted.named entry member first List.mem_cons_self sameKey
      (Nat.le_antisymm below above)
    exact ⟨kind, sameValue⟩
  · rintro ⟨kind, sameValue⟩
    exact ⟨first, List.mem_cons_self, rfl, sameValue, kind, seen,
      fun other isOther sameKey _ => sorted.head_newest isOther sameKey⟩

/-- Behind the user key of such a version only the rest of the stream counts. -/
theorem Sorted.visible_cons_iff_of_seen (sorted : Sorted (first :: stream))
    (seen : first.sequence ≤ seqNo) : Visible (first :: stream) seqNo userKey value ↔
      (userKey = first.userKey ∧ first.key.type = .kTypeValue ∧ first.value = value) ∨
        (first.userKey < userKey ∧ Visible stream seqNo userKey value) := by
  have beyond : first.userKey < userKey → (Visible (first :: stream) seqNo userKey value ↔
      Visible stream seqNo userKey value) :=
    fun less => visible_cons_iff (fun same => absurd same less.ne)
  constructor
  · intro visible
    have notBelow : first.userKey ≤ userKey := by
      obtain ⟨entry, member, rfl, -⟩ := visible
      exact sorted.head_le member
    rcases lt_or_eq_of_le notBelow with less | rfl
    · exact .inr ⟨less, (beyond less).mp visible⟩
    · exact .inl ⟨rfl, (sorted.visible_head_iff seen).mp visible⟩
  · rintro (⟨rfl, here⟩ | ⟨less, later⟩)
    · exact (sorted.visible_head_iff seen).mpr here
    · exact (beyond less).mpr later

/-- The list scan shows the visible map, in ascending order, above the user key
it skips. -/
theorem Sorted.shown_spec (sorted : Sorted stream) (skip : Option Slice)
    (reached : ∀ hidden ∈ skip, ∀ entry ∈ stream, hidden ≤ entry.userKey) :
    (shown seqNo skip stream).Pairwise (fun front behind => front.1 < behind.1) ∧
      ∀ userKey value, (userKey, value) ∈ shown seqNo skip stream ↔
        (∀ hidden ∈ skip, hidden < userKey) ∧
          Visible stream seqNo userKey value := by
  induction stream generalizing skip with
  | nil => simp [shown, Visible]
  | cons first stream ih =>
      have tailReached : ∀ hidden ∈ skip, ∀ entry ∈ stream,
          hidden ≤ entry.userKey := fun hidden isHidden entry member =>
        reached hidden isHidden entry (List.mem_cons_of_mem _ member)
      have firstReached : ∀ hidden ∈ some first.userKey, ∀ entry ∈ stream,
          hidden ≤ entry.userKey := by
        rintro _ ⟨⟩ entry member
        exact sorted.head_le (List.mem_cons_of_mem _ member)
      obtain ⟨skippedOrder, skippedMem⟩ := ih sorted.tail skip tailReached
      obtain ⟨restOrder, restMem⟩ :=
        ih sorted.tail (some first.userKey) firstReached
      rw [shown]
      by_cases seen : first.sequence ≤ seqNo
      · rw [if_pos seen]
        have skipLe : ∀ hidden ∈ skip, hidden ≤ first.userKey :=
          fun hidden isHidden => reached hidden isHidden first List.mem_cons_self
        cases kind : first.key.type with
        | kTypeDeletion =>
            refine ⟨restOrder, fun userKey value => ?_⟩
            rw [restMem, sorted.visible_cons_iff_of_seen seen]
            simp only [kind, reduceCtorEq, false_and, and_false, false_or]
            constructor
            · rintro ⟨above, visible⟩
              have less := above first.userKey rfl
              exact ⟨fun hidden isHidden => (skipLe hidden isHidden).trans_lt less,
                less, visible⟩
            · rintro ⟨-, less, visible⟩
              exact ⟨by simpa using less, visible⟩
        | kTypeValue =>
            simp only
            by_cases covered : ∃ hidden ∈ skip, first.userKey ≤ hidden
            · obtain ⟨hidden, isHidden, below⟩ := covered
              have same := le_antisymm below (skipLe hidden isHidden)
              have hides : skip.any (fun hidden =>
                  (Slice.compare first.userKey hidden).isLE) = true := by
                simp [Option.mem_def.mp isHidden, below]
              rw [if_pos hides]
              refine ⟨skippedOrder, fun userKey value => ?_⟩
              rw [skippedMem, sorted.visible_cons_iff_of_seen seen]
              refine and_congr_right (fun above => ?_)
              have less : first.userKey < userKey := same ▸ above hidden isHidden
              simp [less, less.ne']
            · have open_ : ∀ hidden ∈ skip, hidden < first.userKey := by
                intro hidden isHidden
                rw [← not_le]
                exact fun below => covered ⟨hidden, isHidden, below⟩
              have shows : ¬ skip.any (fun hidden =>
                  (Slice.compare first.userKey hidden).isLE) = true := by
                cases skip with
                | none => simp
                | some hidden => simpa using open_ hidden rfl
              rw [if_neg shows]
              refine ⟨List.pairwise_cons.mpr ⟨?_, restOrder⟩, fun userKey value => ?_⟩
              · rintro ⟨userKey, value⟩ member
                exact ((restMem userKey value).mp member).1 first.userKey rfl
              · rw [List.mem_cons, restMem, sorted.visible_cons_iff_of_seen seen]
                constructor
                · rintro (here | ⟨above, visible⟩)
                  · obtain ⟨rfl, rfl⟩ := Prod.mk.inj here
                    exact ⟨open_, .inl ⟨rfl, kind, rfl⟩⟩
                  · have less := above first.userKey rfl
                    exact ⟨fun hidden isHidden =>
                      (skipLe hidden isHidden).trans_lt less, .inr ⟨less, visible⟩⟩
                · rintro ⟨-, ⟨rfl, -, rfl⟩ | ⟨less, visible⟩⟩
                  · exact .inl rfl
                  · exact .inr ⟨by simpa using less, visible⟩
      · rw [if_neg seen]
        refine ⟨skippedOrder, fun userKey value => ?_⟩
        rw [skippedMem, visible_cons_iff (fun _ => Nat.lt_of_not_le seen)]

/-- Without deletions and second versions the list scan shows everything. -/
theorem Sorted.shown_of_live (sorted : Sorted stream)
    (stored : StoredOnceAndLive stream seqNo) (skip : Option Slice)
    (above : ∀ hidden ∈ skip, ∀ entry ∈ stream, hidden < entry.userKey) :
    shown seqNo skip stream =
      stream.map (fun entry => (entry.userKey, entry.value)) := by
  induction stream generalizing skip with
  | nil => rfl
  | cons first stream ih =>
      obtain ⟨kind, seen⟩ := stored.live first List.mem_cons_self
      have once := stored.once
      rw [List.map_cons, List.nodup_cons] at once
      have shows : ¬ skip.any (fun hidden =>
          (Slice.compare first.userKey hidden).isLE) = true := by
        cases skip with
        | none => simp
        | some hidden => simpa using above hidden rfl first List.mem_cons_self
      rw [shown, if_pos seen, kind]
      simp only
      rw [if_neg shows, List.map_cons, ih sorted.tail
        ⟨once.2, fun entry member => stored.live entry (List.mem_cons_of_mem _ member)⟩]
      rintro _ ⟨⟩ entry member
      refine lt_of_le_of_ne (sorted.head_le (List.mem_cons_of_mem _ member)) ?_
      intro same
      exact once.1 (same ▸ List.mem_map_of_mem member)

end Shown

end AhaTree

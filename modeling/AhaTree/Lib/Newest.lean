import Mathlib.Data.Set.Finite.Lemmas
import Mathlib.Order.Lattice.Nat

/-!
# The newest of several versions

A store keeps versions of one key in several places.  Each version has a rank,
and the newest one decides: if it is alive it is shown, and if it is a mark of
deletion nothing is shown.  The lemmas at the end say when versions can be
merged, and when they can be lost, without any change of what is shown.
-/

namespace Lib

variable {version : Type}

/-- No held version has a greater rank. -/
structure Newest (rank : version → Nat) (held : Set version) (found : version) :
    Prop where
  member : found ∈ held
  greatest : ∀ other ∈ held, rank other ≤ rank found

/-- The newest version, and it is alive. -/
structure Shows (rank : version → Nat) (alive : version → Prop) (held : Set version)
    (found : version) : Prop extends Newest rank held found where
  living : alive found

variable {rank : version → Nat} {alive : version → Prop}
  {held rest merged lost : Set version} {found other : version}

theorem Newest.unique (distinct : Set.InjOn rank held)
    (isNewest : Newest rank held found) (isOther : Newest rank held other) :
    found = other :=
  distinct isNewest.member isOther.member
    (Nat.le_antisymm (isOther.greatest found isNewest.member)
      (isNewest.greatest other isOther.member))

theorem exists_newest (finite : held.Finite) (nonempty : held.Nonempty) :
    ∃ found, Newest rank held found := by
  obtain ⟨found, member, greatest⟩ := Set.exists_max_image held rank finite nonempty
  exact ⟨found, member, greatest⟩

/-- Of several versions only the newest one has to be kept. -/
theorem newest_union_singleton (distinct : Set.InjOn rank (rest ∪ merged))
    (isNewest : Newest rank merged other) :
    Newest rank (rest ∪ {other}) found ↔ Newest rank (rest ∪ merged) found := by
  constructor
  · rintro ⟨member, greatest⟩
    refine ⟨?_, ?_⟩
    · rcases member with inRest | rfl
      · exact .inl inRest
      · exact .inr isNewest.member
    · rintro third (inRest | inMerged)
      · exact greatest third (.inl inRest)
      · exact (isNewest.greatest third inMerged).trans (greatest other (.inr rfl))
  · intro whole
    refine ⟨whole.member.imp_right (fun inMerged => ?_), ?_⟩
    · exact distinct (.inr inMerged) (.inr isNewest.member)
        (Nat.le_antisymm (isNewest.greatest found inMerged)
          (whole.greatest other (.inr isNewest.member)))
    · rintro third (inRest | rfl)
      · exact whole.greatest third (.inl inRest)
      · exact whole.greatest third (.inr isNewest.member)

/-- What stays of merged versions when only the shown one is kept. -/
theorem shown_eq_of_newest (distinct : Set.InjOn rank merged)
    (isNewest : Newest rank merged other) :
    {kept | Shows rank alive merged kept} = {kept | kept = other ∧ alive other} := by
  ext kept
  constructor
  · rintro ⟨keptNewest, living⟩
    obtain rfl := keptNewest.unique distinct isNewest
    exact ⟨rfl, living⟩
  · rintro ⟨rfl, living⟩
    exact ⟨isNewest, living⟩

/-- Keeping only the shown version of some versions changes nothing, unless
these hide an older version elsewhere behind a mark. -/
theorem shows_replace_iff (finite : merged.Finite)
    (distinct : Set.InjOn rank (rest ∪ merged)) :
    (∀ found, Shows rank alive (rest ∪ {kept | Shows rank alive merged kept}) found ↔
      Shows rank alive (rest ∪ merged) found) ↔
      ∀ mark, Newest rank merged mark → ¬ alive mark →
        ∀ older, Shows rank alive rest older → rank mark < rank older := by
  rcases merged.eq_empty_or_nonempty with rfl | nonempty
  · have nothing : {kept | Shows rank alive (∅ : Set version) kept} = ∅ :=
      Set.eq_empty_of_forall_notMem (fun kept shows => shows.member)
    rw [nothing]
    exact iff_of_true (fun _ => Iff.rfl) (fun _ isNewest => isNewest.member.elim)
  · obtain ⟨top, isNewest⟩ : ∃ top, Newest rank merged top :=
      exists_newest finite nonempty
    have mergedDistinct := distinct.mono Set.subset_union_right
    rw [shown_eq_of_newest mergedDistinct isNewest]
    by_cases living : alive top
    · refine iff_of_true (fun found => ?_) ?_
      · have single : {kept | kept = top ∧ alive top} = {top} := by
          simp [living]
        have same : Newest rank (rest ∪ {top}) found ↔ Newest rank (rest ∪ merged) found :=
          newest_union_singleton distinct isNewest
        rw [single]
        exact ⟨fun shows => ⟨same.mp shows.toNewest, shows.living⟩,
          fun shows => ⟨same.mpr shows.toNewest, shows.living⟩⟩
      · intro mark isMark dead
        exact absurd living (isMark.unique mergedDistinct isNewest ▸ dead)
    · have nothing : {kept | kept = top ∧ alive top} = ∅ := by
        simp [living]
      rw [nothing, Set.union_empty]
      constructor
      · intro same mark isMark dead older shows
        have whole := (same older).mp shows
        refine lt_of_le_of_ne (whole.greatest mark (.inr isMark.member)) ?_
        intro equal
        exact dead (distinct (.inr isMark.member) whole.member equal ▸ shows.living)
      · intro above found
        constructor
        · intro shows
          have less := above top isNewest living found shows
          refine ⟨⟨.inl shows.member, ?_⟩, shows.living⟩
          rintro third (inRest | inMerged)
          · exact shows.greatest third inRest
          · exact ((isNewest.greatest third inMerged).trans_lt less).le
        · intro shows
          refine ⟨⟨?_, fun third inRest => shows.greatest third (.inl inRest)⟩,
            shows.living⟩
          refine shows.member.resolve_right (fun inMerged => living ?_)
          have mergedNewest : Newest rank merged found :=
            ⟨inMerged, fun third isThird => shows.greatest third (.inr isThird)⟩
          exact mergedNewest.unique mergedDistinct isNewest ▸ shows.living

/-- A mark at the head of some versions can go with them when nothing is older
than it. -/
theorem shows_drop_iff (distinct : Set.InjOn rank merged)
    (isNewest : Newest rank merged other) (dead : ¬ alive other)
    (newer : ∀ third ∈ rest, rank other < rank third) :
    Shows rank alive rest found ↔ Shows rank alive (rest ∪ merged) found := by
  constructor
  · intro shows
    refine ⟨⟨.inl shows.member, ?_⟩, shows.living⟩
    rintro third (inRest | inMerged)
    · exact shows.greatest third inRest
    · exact (isNewest.greatest third inMerged).trans (newer found shows.member).le
  · intro shows
    refine ⟨⟨?_, fun third inRest => shows.greatest third (.inl inRest)⟩, shows.living⟩
    refine shows.member.resolve_right (fun inMerged => dead ?_)
    have mergedNewest : Newest rank merged found :=
      ⟨inMerged, fun third isThird => shows.greatest third (.inr isThird)⟩
    exact mergedNewest.unique distinct isNewest ▸ shows.living

/-- Of some versions only the newest one is kept, and a mark only on demand.  That
is safe exactly when no mark goes that hides something older elsewhere. -/
theorem reduce_safe_iff {kept : Set version} {keep : Prop} (finite : merged.Finite)
    (distinct : Set.InjOn rank (rest ∪ merged))
    (isKept : ∀ found, found ∈ kept ↔ Newest rank merged found ∧ (alive found ∨ keep)) :
    ((∀ found, Shows rank alive (rest ∪ kept) found ↔
        Shows rank alive (rest ∪ merged) found) ∧
      ∀ mark, Newest rank merged mark → ¬ alive mark → mark ∉ rest ∪ kept →
        ∀ third ∈ rest ∪ kept, rank mark < rank third) ↔
      ∀ mark, Newest rank merged mark → ¬ alive mark → ¬ keep → mark ∉ rest →
        ∀ third ∈ rest, rank mark < rank third := by
  constructor
  · rintro ⟨-, last⟩ mark isNewest dead unasked apart third inRest
    refine last mark isNewest dead ?_ third (.inl inRest)
    rintro (inside | inKept)
    · exact apart inside
    · exact ((isKept mark).mp inKept).2.elim dead unasked
  intro last
  have mergedDistinct := distinct.mono Set.subset_union_right
  rcases merged.eq_empty_or_nonempty with rfl | nonempty
  · have nothing : kept = ∅ := by
      refine Set.eq_empty_of_forall_notMem ?_
      intro found inKept
      exact ((isKept found).mp inKept).1.member
    rw [nothing]
    exact ⟨fun _ => Iff.rfl, fun _ isNewest => isNewest.member.elim⟩
  obtain ⟨top, isNewest⟩ : ∃ top, Newest rank merged top :=
    exists_newest finite nonempty
  have same : ∀ found, Newest rank (rest ∪ {top}) found ↔
      Newest rank (rest ∪ merged) found :=
    fun _ => newest_union_singleton distinct isNewest
  have showsSame : ∀ found, Shows rank alive (rest ∪ {top}) found ↔
      Shows rank alive (rest ∪ merged) found :=
    fun found => ⟨fun shows => ⟨(same found).mp shows.toNewest, shows.living⟩,
      fun shows => ⟨(same found).mpr shows.toNewest, shows.living⟩⟩
  by_cases stays : alive top ∨ keep
  · have single : kept = {top} := by
      ext found
      rw [isKept]
      constructor
      · rintro ⟨isOther, -⟩
        exact isOther.unique mergedDistinct isNewest
      · rintro rfl
        exact ⟨isNewest, stays⟩
    rw [single]
    refine ⟨showsSame, ?_⟩
    intro mark isMark _ gone
    exact absurd (Or.inr (isMark.unique mergedDistinct isNewest)) gone
  · obtain ⟨dead, unasked⟩ := not_or.mp stays
    have nothing : kept = ∅ := by
      refine Set.eq_empty_of_forall_notMem ?_
      intro found inKept
      obtain ⟨isOther, stayed⟩ := (isKept found).mp inKept
      exact stays (isOther.unique mergedDistinct isNewest ▸ stayed)
    rw [nothing, Set.union_empty]
    -- A copy of the mark elsewhere goes on hiding what it hid.
    by_cases copied : top ∈ rest
    · rw [Set.union_eq_self_of_subset_right (Set.singleton_subset_iff.mpr copied)] at showsSame
      refine ⟨showsSame, ?_⟩
      intro mark isMark _ gone
      exact absurd (isMark.unique mergedDistinct isNewest ▸ copied) gone
    · have newer := last top isNewest dead unasked copied
      refine ⟨fun found => shows_drop_iff mergedDistinct isNewest dead newer, ?_⟩
      intro mark isMark _ gone third inRest
      exact isMark.unique mergedDistinct isNewest ▸ newer third inRest

/-- Versions can be lost if those that decide are marks and nothing stands
behind them. -/
theorem shows_lose_iff (finite : (rest ∪ lost).Finite)
    (distinct : Set.InjOn rank (rest ∪ lost)) :
    (∀ found, Shows rank alive rest found ↔ Shows rank alive (rest ∪ lost) found) ↔
      ∀ gone ∈ lost, gone ∉ rest → Newest rank (rest ∪ lost) gone →
        ¬ alive gone ∧ ∀ older, ¬ Shows rank alive rest older := by
  constructor
  · intro same gone _ apart isNewest
    refine ⟨fun living => apart ((same gone).mpr ⟨isNewest, living⟩).member, ?_⟩
    intro older shows
    have whole := (same older).mp shows
    exact apart (whole.toNewest.unique distinct isNewest ▸ shows.member)
  · intro covered found
    constructor
    · intro shows
      obtain ⟨top, isNewest⟩ : ∃ top, Newest rank (rest ∪ lost) top :=
        exists_newest finite ⟨found, .inl shows.member⟩
      refine ⟨⟨.inl shows.member, fun third inside => ?_⟩, shows.living⟩
      by_cases inRest : top ∈ rest
      · exact (isNewest.greatest third inside).trans (shows.greatest top inRest)
      · have gone := isNewest.member.resolve_left inRest
        exact absurd shows ((covered top gone inRest isNewest).2 found)
    · intro shows
      refine ⟨⟨?_, fun third inRest => shows.greatest third (.inl inRest)⟩,
        shows.living⟩
      by_contra apart
      have gone := shows.member.resolve_left apart
      exact (covered found gone apart shows.toNewest).1 shows.living

/-- Ranks below a bound have a greatest one. -/
theorem exists_newest_of_lt {bound : Nat} (bounded : ∀ found ∈ held, rank found < bound)
    (nonempty : held.Nonempty) : ∃ found, Newest rank held found := by
  have above : BddAbove (Set.image rank held) := by
    refine ⟨bound, ?_⟩
    rintro _ ⟨found, member, rfl⟩
    exact (bounded found member).le
  obtain ⟨found, member, isGreatest⟩ := Nat.sSup_mem (nonempty.image rank) above
  refine ⟨found, member, ?_⟩
  intro third inside
  rw [isGreatest]
  exact le_csSup above (Set.mem_image_of_mem rank inside)

/-- Each of several places may forget versions as long as it keeps its newest
one. -/
theorem newest_iUnion_congr {place : Type} {before after : place → Set version}
    {bound : Nat} (bounded : ∀ here, ∀ found ∈ before here, rank found < bound)
    (subset : ∀ here, after here ⊆ before here)
    (same : ∀ here found, Newest rank (after here) found ↔ Newest rank (before here) found) :
    Newest rank (⋃ here, after here) found ↔ Newest rank (⋃ here, before here) found := by
  constructor
  · rintro ⟨member, greatest⟩
    obtain ⟨here, inside⟩ := Set.mem_iUnion.mp member
    refine ⟨Set.mem_iUnion.mpr ⟨here, subset here inside⟩, ?_⟩
    intro third isThird
    obtain ⟨there, inThere⟩ := Set.mem_iUnion.mp isThird
    obtain ⟨top, isTop⟩ : ∃ top, Newest rank (before there) top :=
      exists_newest_of_lt (bounded there) ⟨third, inThere⟩
    have kept := ((same there top).mpr isTop).member
    exact (isTop.greatest third inThere).trans
      (greatest top (Set.mem_iUnion.mpr ⟨there, kept⟩))
  · rintro ⟨member, greatest⟩
    obtain ⟨here, inside⟩ := Set.mem_iUnion.mp member
    have own : Newest rank (before here) found :=
      ⟨inside, fun third isThird => greatest third (Set.mem_iUnion.mpr ⟨here, isThird⟩)⟩
    refine ⟨Set.mem_iUnion.mpr ⟨here, ((same here found).mpr own).member⟩, ?_⟩
    intro third isThird
    obtain ⟨there, inThere⟩ := Set.mem_iUnion.mp isThird
    exact greatest third (Set.mem_iUnion.mpr ⟨there, subset there inThere⟩)

/-- Versions elsewhere may be added to both sides. -/
theorem newest_union_congr {bound : Nat} (bounded : ∀ found ∈ held, rank found < bound)
    (subset : merged ⊆ held)
    (same : ∀ found, Newest rank merged found ↔ Newest rank held found) :
    Newest rank (merged ∪ rest) found ↔ Newest rank (held ∪ rest) found := by
  constructor
  · rintro ⟨member, greatest⟩
    refine ⟨member.imp_left (fun inside => subset inside), ?_⟩
    rintro third (inside | inRest)
    · obtain ⟨top, isTop⟩ : ∃ top, Newest rank held top :=
        exists_newest_of_lt bounded ⟨third, inside⟩
      have kept := ((same top).mpr isTop).member
      exact (isTop.greatest third inside).trans (greatest top (.inl kept))
    · exact greatest third (.inr inRest)
  · rintro ⟨member, greatest⟩
    refine ⟨member.imp_left (fun inside => ?_), ?_⟩
    · have own : Newest rank held found :=
        ⟨inside, fun third isThird => greatest third (.inl isThird)⟩
      exact ((same found).mpr own).member
    · rintro third (inside | inRest)
      · exact greatest third (.inl (subset inside))
      · exact greatest third (.inr inRest)

end Lib

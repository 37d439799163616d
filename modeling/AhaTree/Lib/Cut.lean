import Mathlib.Data.List.TakeWhile

/-!
# Cutting an ordered list at thresholds

A list of items is dealt out to a row of owners, each with a threshold.  The
owner in front takes items until one of them meets the test `stop` against the
threshold of the next owner, and the last owner takes what is left.  When the
items are in an order that `stop` respects, every item ends up with the owner
that a scan for that single item finds.
-/

namespace Lib

variable {threshold owner item : Type*}

/-- Deal the items out in one pass.  Owners behind the last item get nothing
and are not listed. -/
def cut (stop : threshold → item → Bool) :
    List (threshold × owner) → List item → List (owner × List item)
  | _, [] => []
  | [], _ :: _ => []
  | [(_, last)], items => [(last, items)]
  | (_, first) :: next :: owners, items =>
      (first, items.takeWhile (fun item => !stop next.1 item)) ::
        cut stop (next :: owners)
          (items.dropWhile (fun item => !stop next.1 item))

/-- The owner of a single item. -/
def ownerOf (stop : threshold → item → Bool) :
    List (threshold × owner) → item → Option owner
  | [], _ => none
  | [(_, last)], _ => some last
  | (_, first) :: next :: owners, item =>
      if stop next.1 item then ownerOf stop (next :: owners) item
      else some first

/-- An item is in the share of an owner. -/
def Deals (deal : List (owner × List item)) (chosen : owner) (dealt : item) :
    Prop :=
  ∃ share, (chosen, share) ∈ deal ∧ dealt ∈ share

variable {stop : threshold → item → Bool}
  {owners : List (threshold × owner)} {items : List item}

@[simp] theorem deals_cons (chosen head : owner) (dealt : item)
    (share : List item) (deal : List (owner × List item)) :
    Deals ((head, share) :: deal) chosen dealt ↔
      (chosen = head ∧ dealt ∈ share) ∨ Deals deal chosen dealt := by
  constructor
  · rintro ⟨found, member, inside⟩
    rcases List.mem_cons.mp member with here | there
    · cases here
      exact .inl ⟨rfl, inside⟩
    · exact .inr ⟨found, there, inside⟩
  · rintro (⟨rfl, inside⟩ | ⟨found, member, inside⟩)
    · exact ⟨share, List.mem_cons_self, inside⟩
    · exact ⟨found, List.mem_cons_of_mem _ member, inside⟩

@[simp] theorem deals_nil (chosen : owner) (dealt : item) :
    ¬ Deals ([] : List (owner × List item)) chosen dealt := by
  rintro ⟨_, member, _⟩
  cases member

/-- When an item is dropped only together with all items in front of it, nothing
that is left would have been dropped. -/
theorem not_of_mem_dropWhile {drop : item → Bool} {items : List item}
    (ordered : items.Pairwise
      (fun earlier later => drop later = true → drop earlier = true))
    {found : item} (member : found ∈ items.dropWhile drop) :
    drop found = false := by
  induction items with
  | nil => simp at member
  | cons head tail ih =>
      obtain ⟨headFirst, tailOrdered⟩ := List.pairwise_cons.mp ordered
      by_cases dropped : drop head = true
      · rw [List.dropWhile_cons, if_pos dropped] at member
        exact ih tailOrdered member
      · rw [List.dropWhile_cons, if_neg dropped] at member
        rw [Bool.eq_false_iff]
        rcases List.mem_cons.mp member with rfl | inTail
        · exact dropped
        · exact mt (headFirst found inTail) dropped

theorem stop_of_mem_dropWhile {limit : threshold}
    (ordered : items.Pairwise
      (fun earlier later => stop limit earlier = true → stop limit later = true))
    {found : item}
    (member : found ∈ items.dropWhile (fun item => !stop limit item)) :
    stop limit found = true := by
  have kept := not_of_mem_dropWhile (List.Pairwise.imp (by
    intro earlier later order dropped
    rw [Bool.not_eq_true'] at dropped ⊢
    exact Bool.eq_false_iff.mpr (fun stopped => by simp [order stopped] at dropped))
    ordered) member
  simpa using kept

/-- `stop` respects the order of the items, whatever the threshold. -/
def Respects (stop : threshold → item → Bool) (items : List item) : Prop :=
  items.Pairwise (fun earlier later =>
    ∀ limit, stop limit earlier = true → stop limit later = true)

theorem Respects.at_limit (ordered : Respects stop items) (limit : threshold) :
    items.Pairwise (fun earlier later =>
      stop limit earlier = true → stop limit later = true) :=
  List.Pairwise.imp (fun respects => respects limit) ordered

theorem Respects.sublist {part : List item}
    (ordered : Respects stop items) (inside : part.Sublist items) :
    Respects stop part :=
  List.Pairwise.sublist inside ordered

/-- Only items of the list are dealt. -/
theorem mem_of_deals_cut {chosen : owner} {found : item}
    (dealt : Deals (cut stop owners items) chosen found) : found ∈ items := by
  induction owners generalizing items with
  | nil => cases items <;> simp [cut] at dealt
  | cons first rest ih =>
      cases items with
      | nil => simp [cut] at dealt
      | cons head tail =>
          cases rest with
          | nil =>
              simp only [cut, deals_cons, deals_nil, or_false] at dealt
              exact dealt.2
          | cons next owners =>
              simp only [cut, deals_cons] at dealt
              rcases dealt with ⟨_, before⟩ | behind
              · exact (List.takeWhile_sublist _).mem before
              · exact (List.dropWhile_sublist _).mem (ih behind)

/-- The owners that are listed are those in front. -/
theorem map_fst_cut_prefix (owners : List (threshold × owner)) (items : List item) :
    (cut stop owners items).map Prod.fst <+: owners.map Prod.snd := by
  induction owners generalizing items with
  | nil => cases items <;> exact List.nil_prefix
  | cons first rest ih =>
      cases items with
      | nil => exact List.nil_prefix
      | cons head tail =>
          cases rest with
          | nil => exact List.prefix_refl _
          | cons next owners =>
              simp only [cut, List.map_cons, List.prefix_cons_inj]
              exact ih _

/-- The shares in their order are the items. -/
theorem flatMap_snd_cut (filled : owners ≠ []) (items : List item) :
    (cut stop owners items).flatMap Prod.snd = items := by
  induction owners generalizing items with
  | nil => exact absurd rfl filled
  | cons first rest ih =>
      cases items with
      | nil => rfl
      | cons head tail =>
          cases rest with
          | nil => simp [cut]
          | cons next owners =>
              simp only [cut, List.flatMap_cons]
              rw [ih (List.cons_ne_nil _ _)]
              exact List.takeWhile_append_dropWhile

/-- Every item is dealt to its owner and to nobody else. -/
theorem deals_cut_iff (ordered : Respects stop items)
    {found : item} (member : found ∈ items) (chosen : owner) :
    Deals (cut stop owners items) chosen found ↔
      ownerOf stop owners found = some chosen := by
  induction owners generalizing items with
  | nil =>
      cases items with
      | nil => cases member
      | cons => simp [cut, ownerOf]
  | cons first rest ih =>
      cases rest with
      | nil =>
          cases items with
          | nil => cases member
          | cons => simp [cut, ownerOf, member, eq_comm]
      | cons next owners =>
          have dealt : cut stop (first :: next :: owners) items =
              (first.2, items.takeWhile (fun item => !stop next.1 item)) ::
                cut stop (next :: owners)
                  (items.dropWhile (fun item => !stop next.1 item)) := by
            cases items with
            | nil => cases member
            | cons => rfl
          rw [dealt, deals_cons, ownerOf]
          have restOrdered :
              Respects stop (items.dropWhile (fun item => !stop next.1 item)) :=
            ordered.sublist (List.dropWhile_sublist _)
          have divided : found ∈ items.takeWhile (fun item => !stop next.1 item) ∨
              found ∈ items.dropWhile (fun item => !stop next.1 item) := by
            rw [← List.mem_append, List.takeWhile_append_dropWhile]
            exact member
          by_cases reached : stop next.1 found = true
          · have notBefore :
                found ∉ items.takeWhile (fun item => !stop next.1 item) := by
              intro before
              have := List.mem_takeWhile_imp before
              simp [reached] at this
            have behind := divided.resolve_left notBefore
            rw [if_pos reached, ← ih restOrdered behind]
            simp [notBefore]
          · have notBehind :
                found ∉ items.dropWhile (fun item => !stop next.1 item) :=
              fun behind =>
                reached (stop_of_mem_dropWhile (ordered.at_limit next.1) behind)
            have before := divided.resolve_right notBehind
            have nothingLater : ¬ Deals (cut stop (next :: owners)
                (items.dropWhile (fun item => !stop next.1 item)))
                chosen found :=
              fun dealt => notBehind (mem_of_deals_cut dealt)
            rw [if_neg reached]
            simp [before, nothingLater, eq_comm]

/-! ## The owner by its place in the row -/

/-- Thresholds are ascending when an item that reaches one of them reaches all
thresholds in front of it; then such a place is the owner's. -/
theorem ownerOf_eq_of_place {found : item}
    (ascending : owners.Pairwise (fun front behind =>
      stop behind.1 found = true → stop front.1 found = true))
    {index : Nat} {place : threshold × owner}
    (at_index : owners[index]? = some place)
    (started : index = 0 ∨ stop place.1 found = true)
    (ended : ∀ next, owners[index + 1]? = some next →
      stop next.1 found = false) :
    ownerOf stop owners found = some place.2 := by
  induction owners generalizing index with
  | nil => simp at at_index
  | cons first rest ih =>
      obtain ⟨firstLower, restAscending⟩ := List.pairwise_cons.mp ascending
      cases rest with
      | nil =>
          cases index with
          | zero => cases at_index; rfl
          | succ index => simp at at_index
      | cons next owners =>
          rw [ownerOf]
          cases index with
          | zero =>
              cases at_index
              rw [if_neg (by simpa using ended next rfl)]
          | succ index =>
              have met := started.resolve_left (Nat.succ_ne_zero index)
              have reached : stop next.1 found = true := by
                cases index with
                | zero =>
                    cases at_index
                    exact met
                | succ index =>
                    have behind : place ∈ owners :=
                      List.mem_of_getElem? at_index
                    exact (List.pairwise_cons.mp restAscending).1 place behind met
              rw [if_pos reached]
              exact ih restAscending at_index (.inr met) ended

/-- The owner is one of the row. -/
theorem mem_of_ownerOf {found : item} {chosen : owner}
    (owned : ownerOf stop owners found = some chosen) : chosen ∈ owners.map Prod.snd := by
  induction owners with
  | nil => cases owned
  | cons first rest ih =>
      cases rest with
      | nil =>
          cases owned
          exact List.mem_cons_self
      | cons next owners =>
          rw [ownerOf] at owned
          split at owned
          · exact List.mem_cons_of_mem _ (ih owned)
          · cases owned
            exact List.mem_cons_self

/-! ## Rows that are put together -/

/-- Owners behind a threshold count when it is reached, and those in front when it is
not. -/
theorem ownerOf_append {front behind : List (threshold × owner)} (filled : front ≠ [])
    {next : threshold × owner} {found : item}
    (ascending : (front ++ next :: behind).Pairwise (fun front behind =>
      stop behind.1 found = true → stop front.1 found = true)) :
    ownerOf stop (front ++ next :: behind) found =
      if stop next.1 found then ownerOf stop (next :: behind) found
      else ownerOf stop front found := by
  induction front with
  | nil => exact absurd rfl filled
  | cons first front ih =>
      cases front with
      | nil => rfl
      | cons second rest =>
          have tailAscending := (List.pairwise_cons.mp ascending).2
          have tail := ih (List.cons_ne_nil _ _) tailAscending
          rw [List.cons_append, List.cons_append, ownerOf, ← List.cons_append, tail, ownerOf]
          by_cases reached : stop next.1 found = true
          · have earlier : stop second.1 found = true :=
              (List.pairwise_cons.mp tailAscending).1 next
                (List.mem_append_right _ List.mem_cons_self) reached
            rw [if_pos reached, if_pos earlier, if_pos reached]
          · rw [if_neg reached, if_neg reached]

/-- Renaming the owners. -/
theorem ownerOf_map {renamed : Type*} (rename : owner → renamed)
    (owners : List (threshold × owner)) (found : item) :
    ownerOf stop (owners.map (fun place => (place.1, rename place.2))) found =
      (ownerOf stop owners found).map rename := by
  induction owners with
  | nil => rfl
  | cons first rest ih =>
      cases rest with
      | nil => rfl
      | cons next owners =>
          simp only [List.map_cons, ownerOf] at ih ⊢
          rw [ih]
          split
          · rfl
          · rfl

/-- Where every owner makes way for a row of others from its threshold on, the owner in
the long row is found in the row of the old one. -/
theorem ownerOf_flatMap {inner : Type*}
    (row : threshold × owner → List (threshold × inner))
    (heads : ∀ place ∈ owners, (row place).head?.map Prod.fst = some place.1) {found : item}
    (ascending : (owners.flatMap row).Pairwise (fun front behind =>
      stop behind.1 found = true → stop front.1 found = true)) :
    ownerOf stop (owners.flatMap row) found =
      (ownerOf stop (owners.map (fun place => (place.1, row place))) found).bind
        (fun chosen => ownerOf stop chosen found) := by
  induction owners with
  | nil => rfl
  | cons first rest ih =>
      obtain ⟨head, others⟩ := List.forall_mem_cons.mp heads
      cases rest with
      | nil => simp [ownerOf]
      | cons next owners =>
          have tailAscending := ascending
          rw [List.flatMap_cons] at tailAscending
          have tail := ih others (List.pairwise_append.mp tailAscending).2.1
          have filled : row first ≠ [] := by
            intro empty
            rw [empty] at head
            cases head
          obtain ⟨start, isStart, sameStart⟩ :=
            Option.map_eq_some_iff.mp (others next List.mem_cons_self)
          obtain ⟨more, isRow⟩ : ∃ more, row next = start :: more := by
            cases isRow : row next with
            | nil =>
                rw [isRow] at isStart
                cases isStart
            | cons other more =>
                rw [isRow] at isStart
                cases isStart
                exact ⟨more, rfl⟩
          have isTail : (next :: owners).flatMap row = start :: (more ++ owners.flatMap row) := by
            rw [List.flatMap_cons, isRow, List.cons_append]
          rw [isTail] at tail tailAscending
          rw [List.flatMap_cons, isTail, ownerOf_append filled tailAscending, tail, sameStart]
          simp only [List.map_cons, ownerOf]
          by_cases reached : stop next.1 found = true
          · rw [if_pos reached, if_pos reached]
          · rw [if_neg reached, if_neg reached, Option.bind_some]

/-! ## Shares of one size -/

/-- The shares of a given size, and one more with all that is left. -/
def shares (size : Nat) : Nat → List item → List (List item)
  | 0, items => [items]
  | more + 1, items => items.take size :: shares size more (items.drop size)

@[simp] theorem shares_length (size more : Nat) (items : List item) :
    (shares size more items).length = more + 1 := by
  induction more generalizing items with
  | zero => rfl
  | succ more ih => rw [shares, List.length_cons, ih]

@[simp] theorem shares_flatten (size more : Nat) (items : List item) :
    (shares size more items).flatten = items := by
  induction more generalizing items with
  | zero => simp [shares]
  | succ more ih => rw [shares, List.flatten_cons, ih, List.take_append_drop]

theorem shares_nil (size more : Nat) :
    shares size more ([] : List item) = List.replicate (more + 1) [] := by
  induction more with
  | zero => rfl
  | succ more ih => rw [shares, List.take_nil, List.drop_nil, ih, ← List.replicate_succ]

/-- What does not fill the first share leaves nothing to the others. -/
theorem shares_short {size more : Nat} {items : List item}
    (short : more ≠ 0 → items.length < size) :
    shares size more items = items :: List.replicate more [] := by
  cases more with
  | zero => rfl
  | succ more =>
      have fewer := (short (Nat.succ_ne_zero more)).le
      rw [shares, List.take_of_length_le fewer, List.drop_of_length_le fewer, shares_nil]

/-- No share is empty when there are more items than the even ones take. -/
theorem shares_filled {size more : Nat} (positive : 0 < size) {items : List item}
    (enough : more * size < items.length) {share : List item}
    (member : share ∈ shares size more items) : share ≠ [] := by
  induction more generalizing items with
  | zero =>
      rw [shares, List.mem_singleton] at member
      rw [member]
      exact List.ne_nil_of_length_pos (by omega)
  | succ more ih =>
      rw [Nat.succ_mul] at enough
      rcases List.mem_cons.mp member with rfl | later
      · exact List.ne_nil_of_length_pos (by
          rw [List.length_take]
          omega)
      · exact ih (by
          rw [List.length_drop]
          omega) later

end Lib

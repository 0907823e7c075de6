import Zaino.Library.OrderedMap

/-!
# Merging sorted segments

Several segments, each a stream of entries in ascending key order, are merged by a priority queue
of their first unread entries. Where several segments hold one key, the entry of the last segment
wins. The segments are read through cursors that can fail; what was merged before a failure stands.
For cursors that yield ascending lists, the merged stream is ascending and means the same puts as
the segments one after another (`merged_spec`).
-/

namespace Library.KWayMerge

open List Edit Option Std.ReflOrd Or Std.LawfulEqOrd

variable {κ β S ε : Type}

/-- A segment's first unread entry and the cursor behind it. -/
structure Head (κ β S : Type) where
  key : κ
  segment : Nat
  value : β
  rest : S

section

variable (next : S → Except ε (Option ((κ × β) × S)))

/-- The first unread entry of a segment, if there is one. -/
def load (segment : Nat) (cursor : S) : Except ε (Option (Head κ β S)) :=
  match next cursor with
  | .error e => .error e
  | .ok none => .ok none
  | .ok (some (entry, rest)) => .ok (some ⟨entry.1, segment, entry.2, rest⟩)

/-- The cursor yields exactly these entries and then ends. -/
def Yields : S → List (κ × β) → Prop
  | cursor, [] => next cursor = .ok none
  | cursor, entry :: entries => ∃ rest, next cursor = .ok (some (entry, rest)) ∧ Yields rest entries

end

theorem load_of_yields {next : S → Except ε (Option ((κ × β) × S))} {entries : List (κ × β)}
    {cursor : S} (yields : Yields next cursor entries) (segment : Nat) :
    (entries = [] ∧ load next segment cursor = .ok none) ∨
      ∃ entry rest entries', entries = entry :: entries' ∧ Yields next rest entries' ∧
        load next segment cursor = .ok (some ⟨entry.1, segment, entry.2, rest⟩) := by
  cases entries with
  | nil =>
    apply inl
    refine ⟨rfl, ?_⟩
    rw [load, show next cursor = .ok none from yields]
  | cons entry entries =>
    obtain ⟨rest, read, yields⟩ := yields
    apply inr
    refine ⟨entry, rest, entries, rfl, yields, ?_⟩
    rw [load, read]

theorem split_at {α : Type} {segments : List (List α)} {segment : Nat} {whole : List α}
    (held : segments[segment]? = some whole) (entries : List α) :
    segments.flatten = (segments.take segment).flatten ++ whole ++
        (segments.drop (segment + 1)).flatten ∧
      (segments.set segment entries).flatten = (segments.take segment).flatten ++ entries ++
        (segments.drop (segment + 1)).flatten := by
  obtain ⟨present, is_whole⟩ := List.getElem?_eq_some_iff.mp held
  constructor
  · conv => lhs; rw [← take_append_drop segment segments, drop_eq_getElem_cons present]
    rw [is_whole, flatten_append, flatten_cons, append_assoc]
  · rw [set_eq_take_append_cons_drop, if_pos present, flatten_append, flatten_cons,
      append_assoc]

variable [Ord κ]

/-- The queue's order: by key, then by segment. -/
def before (a b : Head κ β S) : Bool :=
  (compare a.key b.key).then (compare a.segment b.segment) = .lt

/-- Put a head into the queue, which is kept in order. -/
def push (head : Head κ β S) : List (Head κ β S) → List (Head κ β S)
  | [] => [head]
  | first :: others =>
    if before head first then head :: first :: others else first :: push head others

def pushLoaded (heap : List (Head κ β S)) : Option (Head κ β S) → List (Head κ β S)
  | none => heap
  | some head => push head heap

section

variable (next : S → Except ε (Option ((κ × β) × S)))

/-- The queue of the first entries of the segments from number `segment` on. -/
def prime : Nat → List S → Except ε (List (Head κ β S))
  | _, [] => .ok []
  | segment, cursor :: cursors => do
    let loaded ← load next segment cursor
    let heap ← prime (segment + 1) cursors
    pure (pushLoaded heap loaded)

/-- The better of the best entry so far and a new one: the one of the later segment. -/
def better (winner : Option (Nat × β)) (head : Head κ β S) : Option (Nat × β) :=
  if winner.all fun best => best.1 ≤ head.segment then some (head.segment, head.value) else winner

variable [DecidableEq κ]

/-- Take every entry of one key off the queue and keep the latest segment's value. -/
def drain : Nat → κ → List (Head κ β S) → Option (Nat × β) →
    Except ε (List (Head κ β S) × Option (Nat × β))
  | 0, _, heap, winner => .ok (heap, winner)
  | _ + 1, _, [], winner => .ok ([], winner)
  | steps + 1, key, head :: others, winner =>
    if head.key = key then do
      let loaded ← load next head.segment head.rest
      drain steps key (pushLoaded others loaded) (better winner head)
    else .ok (head :: others, winner)

/-- The merged stream, and the failure that ended it if one did. -/
def merged : Nat → List (Head κ β S) → List (κ × β) × Option ε
  | 0, _ => ([], none)
  | _ + 1, [] => ([], none)
  | steps + 1, head :: others =>
    match drain next (steps + 1) head.key (head :: others) none with
    | .error e => ([], some e)
    | .ok (_, none) => ([], none)
    | .ok (heap, some best) =>
      let rest := merged steps heap
      ((head.key, best.2) :: rest.1, rest.2)

/-- The queue holds the first entry of every segment that has one left. -/
structure Represents (heap : List (Head κ β S)) (segments : List (List (κ × β))) : Prop where
  sorted : heap.Pairwise fun a b => before a b = true
  sound : ∀ head ∈ heap, ∃ entries,
    segments[head.segment]? = some ((head.key, head.value) :: entries) ∧
      Yields next head.rest entries
  complete : ∀ segment entry entries, segments[segment]? = some (entry :: entries) →
    ∃ head ∈ heap, head.segment = segment

end

/-- Every segment is in ascending key order. -/
def Ascending (segments : List (List (κ × β))) : Prop :=
  ∀ entries ∈ segments, entries.Pairwise fun a b => compare a.1 b.1 = .lt

theorem Ascending.set {segments : List (List (κ × β))} {entries : List (κ × β)}
    (ascending : Ascending segments) {segment : Nat} {entry : κ × β}
    (held : segments[segment]? = some (entry :: entries)) :
    Ascending (segments.set segment entries) := by
  intro left member
  rcases mem_or_eq_of_mem_set member with before | rfl
  · exact ascending left before
  · exact (pairwise_cons.mp (ascending _ (mem_of_getElem? held))).2

/-! ## The queue -/

@[simp]
theorem mem_push {head other : Head κ β S} {heap : List (Head κ β S)} :
    other ∈ push head heap ↔ other = head ∨ other ∈ heap := by
  induction heap with
  | nil => simp [push]
  | cons first heap ih =>
    unfold push
    split
    · simp
    · rw [mem_cons, ih, mem_cons]
      tauto

variable [Std.LawfulEqOrd κ]

theorem before_iff {a b : Head κ β S} :
    before a b = true ↔ compare a.key b.key = .lt ∨ (a.key = b.key ∧ a.segment < b.segment) := by
  rw [before, decide_eq_true_iff]
  cases order : compare a.key b.key with
  | lt => simp
  | eq =>
    have same : a.key = b.key := eq_of_compare order
    simp [same, Nat.compare_eq_lt]
  | gt =>
    have differ : a.key ≠ b.key := by
      intro same
      rw [same, compare_self] at order
      cases order
    simp [differ]

variable [Std.TransOrd κ]

theorem before_trans {a b c : Head κ β S} (ab : before a b = true) (bc : before b c = true) :
    before a c = true := by
  rw [before_iff] at ab bc ⊢
  rcases ab with ab | ⟨ab, ab_segment⟩
  · rcases bc with bc | ⟨bc, _⟩
    · exact inl (Std.TransCmp.lt_trans ab bc)
    · exact inl (bc ▸ ab)
  · rcases bc with bc | ⟨bc, bc_segment⟩
    · exact inl (ab ▸ bc)
    · exact inr ⟨ab.trans bc, by omega⟩

/-- Of two heads of different segments one comes before the other. -/
theorem before_of_not {a b : Head κ β S} (differ : a.segment ≠ b.segment)
    (not_before : ¬ before a b = true) : before b a = true := by
  rw [before_iff] at not_before ⊢
  cases order : compare a.key b.key with
  | lt => exact absurd (inl order) not_before
  | gt => exact inl (Std.OrientedCmp.gt_iff_lt.mp order)
  | eq =>
    have same : a.key = b.key := eq_of_compare order
    apply inr
    refine ⟨same.symm, ?_⟩
    rcases Nat.lt_trichotomy a.segment b.segment with less | equal | more
    · exact absurd (inr ⟨same, less⟩) not_before
    · exact absurd equal differ
    · exact more

theorem push_sorted {head : Head κ β S} {heap : List (Head κ β S)}
    (sorted : heap.Pairwise fun a b => before a b = true)
    (other : ∀ held ∈ heap, head.segment ≠ held.segment) :
    (push head heap).Pairwise fun a b => before a b = true := by
  induction heap with
  | nil => exact pairwise_singleton _ _
  | cons first heap ih =>
    rw [pairwise_cons] at sorted
    unfold push
    split
    · next first_later =>
      rw [pairwise_cons, pairwise_cons]
      refine ⟨?_, sorted⟩
      intro held member
      rcases mem_cons.mp member with rfl | later
      · exact first_later
      · exact before_trans first_later (sorted.1 held later)
    · next not_before =>
      rw [pairwise_cons]
      refine ⟨?_, ih sorted.2 fun held member => other held (mem_cons_of_mem _ member)⟩
      intro held member
      rcases mem_push.mp member with rfl | later
      · exact before_of_not (other first mem_cons_self) not_before
      · exact sorted.1 held later

/-! ## Taking one entry off the queue -/

section

variable {next : S → Except ε (Option ((κ × β) × S))} {segments : List (List (κ × β))}
  {heap others : List (Head κ β S)} {head : Head κ β S} {entries : List (κ × β)}

omit [Std.TransOrd κ] in
theorem Represents.segment_ne (represents : Represents next (head :: others) segments)
    {other : Head κ β S} (member : other ∈ others) : head.segment ≠ other.segment := by
  intro same
  obtain ⟨_, held, _⟩ := represents.sound head mem_cons_self
  obtain ⟨_, other_held, _⟩ := represents.sound other (mem_cons_of_mem _ member)
  rw [← same, held] at other_held
  have keys : head.key = other.key := by
    have := some.inj other_held
    rw [List.cons.injEq, Prod.mk.injEq] at this
    exact this.1.1
  have ordered := before_iff.mp ((pairwise_cons.mp represents.sorted).1 other member)
  rcases ordered with less | ⟨_, less⟩
  · rw [keys, compare_self] at less
    cases less
  · omega

/-- Loading the first entry of a segment that the queue holds nothing of. -/
theorem Represents.load {segment : Nat} {cursor : S}
    (sorted : heap.Pairwise fun a b => before a b = true)
    (sound : ∀ head ∈ heap, segment ≠ head.segment ∧ ∃ left,
      segments[head.segment]? = some ((head.key, head.value) :: left) ∧ Yields next head.rest left)
    (complete : ∀ other entry left, segments[other]? = some (entry :: left) → other ≠ segment →
      ∃ head ∈ heap, head.segment = other)
    (present : segment < segments.length) (yields : Yields next cursor entries) :
    ∃ loaded, KWayMerge.load next segment cursor = .ok loaded ∧
      Represents next (pushLoaded heap loaded) (segments.set segment entries) := by
  have kept : ∀ head ∈ heap, ∃ left,
      (segments.set segment entries)[head.segment]? = some ((head.key, head.value) :: left) ∧
        Yields next head.rest left := by
    intro head member
    rw [getElem?_set_ne (sound head member).1]
    exact (sound head member).2
  have others : ∀ other entry left,
      (segments.set segment entries)[other]? = some (entry :: left) → other ≠ segment →
        ∃ head ∈ heap, head.segment = other := by
    intro other entry left found differ
    rw [getElem?_set_ne (Ne.symm differ)] at found
    exact complete other entry left found differ
  rcases load_of_yields yields segment with ⟨rfl, loaded⟩ |
    ⟨entry, rest, left, rfl, left_yields, loaded⟩
  · refine ⟨none, loaded, sorted, kept, ?_⟩
    intro other entry left found
    apply others other entry left found
    rintro rfl
    rw [getElem?_set_self present] at found
    cases found
  · refine ⟨_, loaded, push_sorted sorted fun held member => (sound held member).1, ?_, ?_⟩
    · intro head member
      rcases mem_push.mp member with rfl | later
      · exact ⟨left, getElem?_set_self present, left_yields⟩
      · exact kept head later
    · intro other other_entry other_left found
      by_cases same : other = segment
      · exact ⟨_, mem_push.mpr (inl rfl), same.symm⟩
      · obtain ⟨head, member, named⟩ := others other other_entry other_left found same
        exact ⟨head, mem_push.mpr (inr member), named⟩

/-- Taking the first head off the queue and loading the next entry of its segment. -/
theorem Represents.pop (represents : Represents next (head :: others) segments)
    (held : segments[head.segment]? = some ((head.key, head.value) :: entries))
    (yields : Yields next head.rest entries) :
    ∃ loaded, KWayMerge.load next head.segment head.rest = .ok loaded ∧
      Represents next (pushLoaded others loaded) (segments.set head.segment entries) := by
  apply Represents.load (pairwise_cons.mp represents.sorted).2 _ _
    (List.getElem?_eq_some_iff.mp held).1 yields
  · intro other member
    exact ⟨represents.segment_ne member, represents.sound other (mem_cons_of_mem _ member)⟩
  · intro segment entry left found differ
    obtain ⟨other, member, named⟩ := represents.complete segment entry left found
    rcases mem_cons.mp member with rfl | later
    · exact absurd named.symm differ
    · exact ⟨other, later, named⟩

/-- The queue that reading starts with. -/
theorem prime_spec {cursors : List S} (yields : List.Forall₂ (Yields next) cursors segments) :
    ∃ heap, prime next 0 cursors = .ok heap ∧ Represents next heap segments := by
  suffices from_segment : ∀ segment, ∃ heap, prime next segment cursors = .ok heap ∧
      Represents next heap (List.replicate segment [] ++ segments) from from_segment 0
  induction yields with
  | nil =>
    intro segment
    refine ⟨[], rfl, List.Pairwise.nil, ?_, ?_⟩
    · intro head member
      cases member
    · intro other entry left found
      rw [append_nil, getElem?_replicate] at found
      split at found <;> cases found
  | @cons cursor entries cursors segments first _ ih =>
    intro segment
    obtain ⟨heap, primed, represents⟩ := ih (segment + 1)
    have placed : (List.replicate (segment + 1) [] ++ segments).set segment entries =
        List.replicate segment [] ++ entries :: segments := by
      rw [replicate_succ', append_assoc]
      simp
    have empty : (List.replicate (segment + 1) [] ++ segments)[segment]? =
        some ([] : List (κ × β)) := by
      rw [replicate_succ', append_assoc]
      simp
    obtain ⟨loaded, is_loaded, with_first⟩ := Represents.load represents.sorted
      (by
        intro head member
        obtain ⟨left, held, left_yields⟩ := represents.sound head member
        refine ⟨?_, left, held, left_yields⟩
        rintro rfl
        rw [empty] at held
        cases held)
      (fun other entry left found _ => represents.complete other entry left found)
      (List.getElem?_eq_some_iff.mp empty).1 first
    refine ⟨_, ?_, placed ▸ with_first⟩
    rw [prime, is_loaded, primed]
    rfl

end

/-! ## Merging -/

section

variable {next : S → Except ε (Option ((κ × β) × S))} {segments : List (List (κ × β))}
  {heap others : List (Head κ β S)} {head : Head κ β S} {entries : List (κ × β)}
  {entry : κ × β}

omit [Std.LawfulEqOrd κ] in
/-- A segment's keys are at or above the key of its head in the queue. -/
theorem Represents.head_below (represents : Represents next heap segments)
    (ascending : Ascending segments) {segment : Nat} {whole : List (κ × β)}
    (held : segments[segment]? = some whole) (member : entry ∈ whole) :
    ∃ other ∈ heap, other.segment = segment ∧ (compare other.key entry.1).isLE = true := by
  cases whole with
  | nil => cases member
  | cons first left =>
    obtain ⟨other, other_member, rfl⟩ := represents.complete segment first left held
    obtain ⟨_, other_held, _⟩ := represents.sound other other_member
    cases held.symm.trans other_held
    refine ⟨other, other_member, rfl, ?_⟩
    rcases mem_cons.mp member with rfl | later
    · exact Std.ReflCmp.isLE_rfl
    · rw [(pairwise_cons.mp (ascending _ (mem_of_getElem? held))).1 entry later]
      rfl

/-- No key is below the queue's first. -/
theorem Represents.first_le (represents : Represents next (head :: others) segments)
    (ascending : Ascending segments) (member : entry ∈ segments.flatten) :
    (compare head.key entry.1).isLE = true := by
  obtain ⟨whole, whole_member, entry_member⟩ := mem_flatten.mp member
  obtain ⟨segment, held⟩ := mem_iff_getElem?.mp whole_member
  obtain ⟨other, other_member, _, below⟩ := represents.head_below ascending held entry_member
  refine Std.TransCmp.isLE_trans ?_ below
  rcases mem_cons.mp other_member with rfl | later
  · exact Std.ReflCmp.isLE_rfl
  · rcases before_iff.mp ((pairwise_cons.mp represents.sorted).1 other later) with less | ⟨same, _⟩
    · rw [less]
      rfl
    · rw [same]
      exact Std.ReflCmp.isLE_rfl

/-- No segment before that of the first head holds its key. -/
theorem Represents.not_earlier (represents : Represents next (head :: others) segments)
    (ascending : Ascending segments)
    (member : entry ∈ (segments.take head.segment).flatten) : entry.1 ≠ head.key := by
  intro same
  obtain ⟨whole, whole_member, entry_member⟩ := mem_flatten.mp member
  obtain ⟨segment, taken⟩ := mem_iff_getElem?.mp whole_member
  rw [getElem?_take, ite_none_right_eq_some] at taken
  obtain ⟨other, other_member, rfl, below⟩ :=
    represents.head_below ascending taken.2 entry_member
  rcases mem_cons.mp other_member with rfl | after
  · omega
  · rcases before_iff.mp ((pairwise_cons.mp represents.sorted).1 other after) with less | ⟨_, less⟩
    · rw [same, Std.OrientedCmp.gt_iff_lt.mpr less] at below
      cases below
    · omega

omit [Std.TransOrd κ] [Std.LawfulEqOrd κ] in
theorem Represents.flatten_nil (represents : Represents next [] segments) :
    segments.flatten = [] := by
  rw [flatten_eq_nil_iff]
  intro whole member
  obtain ⟨segment, present, rfl⟩ := mem_iff_getElem.mp member
  cases held : segments[segment] with
  | nil => rfl
  | cons entry left =>
    obtain ⟨head, absurd, _⟩ := represents.complete segment entry left
      (List.getElem?_eq_some_iff.mpr ⟨present, held⟩)
    cases absurd

/-- After the first head is taken off, heads of its key belong to no earlier segment. -/
theorem Represents.segment_le (represents : Represents next (head :: others) segments)
    (ascending : Ascending segments)
    (popped : Represents next heap (segments.set head.segment entries)) {other : Head κ β S}
    (member : other ∈ heap) (same : other.key = head.key) : head.segment ≤ other.segment := by
  rcases Nat.lt_or_ge other.segment head.segment with earlier | later
  · obtain ⟨left, held, _⟩ := popped.sound other member
    rw [getElem?_set_ne (by omega)] at held
    have taken : (segments.take head.segment)[other.segment]? =
        some ((other.key, other.value) :: left) := by
      rw [getElem?_take_of_lt earlier]
      exact held
    have listed : (other.key, other.value) ∈ (segments.take head.segment).flatten :=
      mem_flatten.mpr ⟨_, mem_of_getElem? taken, mem_cons_self⟩
    exact absurd same (represents.not_earlier ascending listed)
  · exact later

variable [DecidableEq κ]

/-- What taking the first head off changes: only its own key, which loses its earliest value. -/
theorem Represents.latest_pop (represents : Represents next (head :: others) segments)
    (ascending : Ascending segments)
    (held : segments[head.segment]? = some ((head.key, head.value) :: entries)) :
    (∀ k ≠ head.key, latest (puts (segments.set head.segment entries).flatten) k =
      latest (puts segments.flatten) k) ∧
    latest (puts segments.flatten) head.key =
      (latest (puts (segments.set head.segment entries).flatten) head.key).or
        (some (some head.value)) := by
  obtain ⟨before_pop, after_pop⟩ := split_at held entries
  have head_put : ∀ k, latest (puts ((head.key, head.value) :: entries)) k =
      (latest (puts entries) k).or
        (if head.key = k then some (some head.value) else none) := fun k => rfl
  rw [before_pop, after_pop]
  simp only [puts_append, latest_append, head_put]
  refine ⟨?_, ?_⟩
  · intro k differ
    rw [if_neg (Ne.symm differ), Option.or_none]
  · have earlier : latest (puts (segments.take head.segment).flatten) head.key = none := by
      apply latest_eq_none.mpr
      intro e listed
      obtain ⟨entry, member, rfl⟩ := mem_map.mp listed
      exact represents.not_earlier ascending member
    rw [earlier, if_pos trivial, Option.or_none, Option.or_none, Option.or_assoc]

omit [Std.TransOrd κ] in
theorem latest_of_above {key : κ} (above : ∀ entry ∈ entries, compare key entry.1 = .lt) :
    latest (puts entries) key = none := by
  apply latest_eq_none.mpr
  intro e listed named
  obtain ⟨entry, member, rfl⟩ := mem_map.mp listed
  have past := above entry member
  rw [show entry.1 = key from named, compare_self] at past
  cases past

/-- What draining a key that lies at or below all that is left should do: its entries are gone, the
others stay, and the winner is the value that putting the segments one after another gives it. -/
structure Drained (key : κ) (segments : List (List (κ × β))) (winner : Option (Nat × β))
    (segments' : List (List (κ × β))) (winner' : Option (Nat × β)) : Prop where
  above : ∀ entry ∈ segments'.flatten, compare key entry.1 = .lt
  agree : ∀ k ≠ key, latest (puts segments'.flatten) k =
    latest (puts segments.flatten) k
  won : (winner'.map fun best => some best.2) =
    (latest (puts segments.flatten) key).or (winner.map fun best => some best.2)
  no_more : segments'.flatten.length ≤ segments.flatten.length
  fewer : ∀ entry ∈ segments.flatten, entry.1 = key →
    segments'.flatten.length < segments.flatten.length

omit [Std.TransOrd κ] in
/-- Nothing changes when the key is not there any more. -/
theorem Drained.stays {key : κ} (past : ∀ entry ∈ segments.flatten, compare key entry.1 = .lt)
    (winner : Option (Nat × β)) : Drained key segments winner segments winner where
  above := past
  agree _ _ := rfl
  won := by rw [latest_of_above past, none_or]
  no_more := Nat.le_refl _
  fewer entry member same := by
    have above := past entry member
    rw [same, compare_self] at above
    cases above

theorem drain_spec {key : κ} (steps : Nat) : ∀ {heap : List (Head κ β S)}
    {segments : List (List (κ × β))} (winner : Option (Nat × β)),
    Represents next heap segments → Ascending segments →
    (∀ entry ∈ segments.flatten, (compare key entry.1).isLE = true) →
    segments.flatten.length ≤ steps →
    (∀ best ∈ winner, ∀ head ∈ heap, head.key = key → best.1 ≤ head.segment) →
    ∃ heap' segments' winner', drain next steps key heap winner = .ok (heap', winner') ∧
      Represents next heap' segments' ∧ Ascending segments' ∧
      Drained key segments winner segments' winner' := by
  induction steps with
  | zero =>
    intro heap segments winner represents ascending _ short _
    have empty : segments.flatten = [] := eq_nil_of_length_eq_zero (by omega)
    refine ⟨heap, segments, winner, rfl, represents, ascending, .stays ?_ winner⟩
    rw [empty]
    exact fun entry member => nomatch member
  | succ steps ih =>
    intro heap segments winner represents ascending minimal short latest_first
    cases heap with
    | nil =>
      refine ⟨[], segments, winner, rfl, represents, ascending, .stays ?_ winner⟩
      rw [represents.flatten_nil]
      exact fun entry member => nomatch member
    | cons head others =>
      obtain ⟨entries, held, yields⟩ := represents.sound head mem_cons_self
      by_cases same : head.key = key
      · obtain ⟨loaded, is_loaded, popped⟩ := represents.pop held yields
        obtain ⟨others_same, own⟩ := represents.latest_pop ascending held
        obtain ⟨whole, rest⟩ := split_at held entries
        have fewer : (segments.set head.segment entries).flatten.length + 1 =
            segments.flatten.length := by
          rw [whole, rest]
          simp only [length_append, length_cons]
          omega
        have subset : ∀ entry ∈ (segments.set head.segment entries).flatten,
            entry ∈ segments.flatten := by
          rw [whole, rest]
          intro entry member
          simp only [mem_append, mem_cons] at member ⊢
          tauto
        have won : better winner head = some (head.segment, head.value) := by
          unfold better
          rw [if_pos]
          cases winner with
          | none => rfl
          | some best =>
            simpa using latest_first best rfl head mem_cons_self same
        have later_first : ∀ best ∈ better winner head, ∀ other ∈ pushLoaded others loaded,
            other.key = key → best.1 ≤ other.segment := by
          rw [won]
          intro best is_best other member other_same
          cases is_best
          exact represents.segment_le ascending popped member (other_same.trans same.symm)
        obtain ⟨heap', segments', winner', drained, represents', ascending', left⟩ :=
          ih (better winner head) popped (ascending.set held)
            (fun entry member => minimal entry (subset entry member)) (by omega) later_first
        have no_more := left.no_more
        refine ⟨heap', segments', winner', ?_, represents', ascending', left.above, ?_, ?_, by omega,
          fun _ _ _ => by omega⟩
        · rw [drain, if_pos same, is_loaded]
          exact drained
        · intro k differ
          rw [left.agree k differ, others_same k (by rwa [same])]
        · rw [left.won, won, ← same, own, Option.or_assoc]
          rfl
      · refine ⟨head :: others, segments, winner, ?_, represents, ascending, .stays ?_ winner⟩
        · rw [drain, if_neg same]
        · intro entry member
          have key_lt : compare key head.key = .lt := by
            cases order : compare key head.key with
            | lt => rfl
            | eq => exact absurd (eq_of_compare order).symm same
            | gt =>
              have le := minimal _ (mem_flatten.mpr ⟨_, mem_of_getElem? held, mem_cons_self⟩)
              rw [order] at le
              cases le
          exact Std.TransCmp.lt_of_lt_of_isLE key_lt (represents.first_le ascending member)

/-- The merged stream of ascending segments is ascending and means the same puts as the segments one
after another. -/
theorem merged_spec (steps : Nat) : ∀ {heap : List (Head κ β S)} {segments : List (List (κ × β))},
    Represents next heap segments → Ascending segments → segments.flatten.length ≤ steps →
    ∃ stream, merged next steps heap = (stream, none) ∧
      (stream.Pairwise fun a b => compare a.1 b.1 = .lt) ∧
      ∀ k, latest (puts stream) k = latest (puts segments.flatten) k := by
  induction steps with
  | zero =>
    intro heap segments _ _ short
    have empty : segments.flatten = [] := eq_nil_of_length_eq_zero (by omega)
    exact ⟨[], rfl, List.Pairwise.nil, fun k => by rw [empty]⟩
  | succ steps ih =>
    intro heap segments represents ascending short
    cases heap with
    | nil => exact ⟨[], rfl, List.Pairwise.nil, fun k => by rw [represents.flatten_nil]⟩
    | cons head others =>
      obtain ⟨heap', segments', winner, drained, represents', ascending', above, agree, won, _,
        fewer⟩ := drain_spec (steps + 1) none represents ascending
          (fun entry member => represents.first_le ascending member) short
          (fun best absurd => by cases absurd)
      obtain ⟨entries, held, _⟩ := represents.sound head mem_cons_self
      have taken := fewer _ (mem_flatten.mpr ⟨_, mem_of_getElem? held, mem_cons_self⟩) rfl
      obtain ⟨stream, rest, rest_ascending, rest_agree⟩ := ih represents' ascending' (by omega)
      have own := (represents.latest_pop ascending held).2
      rw [map_none, Option.or_none] at won
      cases winner with
      | none =>
        rw [← won] at own
        cases later : latest (puts (segments.set head.segment entries).flatten)
            head.key with
        | none => simp [later] at own
        | some value => simp [later] at own
      | some best =>
        refine ⟨(head.key, best.2) :: stream, ?_, pairwise_cons.mpr ⟨?_, rest_ascending⟩, ?_⟩
        · rw [merged, drained]
          simp only [rest]
        · intro entry member
          cases found : latest (puts segments'.flatten) entry.1 with
          | none =>
            rw [← rest_agree, latest_eq_none] at found
            exact absurd rfl (found ⟨entry.1, some entry.2⟩
              (mem_map_of_mem (f := fun e => (⟨e.1, some e.2⟩ : Edit κ β)) member))
          | some value =>
            obtain ⟨written, _, listed⟩ := value_of_mem_puts (mem_of_latest found)
            exact above (entry.1, written) listed
        · intro k
          have first : latest (puts ((head.key, best.2) :: stream)) k =
              (latest (puts stream) k).or
                (if head.key = k then some (some best.2) else none) := rfl
          rw [first, rest_agree]
          by_cases same : head.key = k
          · subst same
            rw [latest_of_above above, if_pos rfl, none_or, ← won]
            rfl
          · rw [if_neg same, Option.or_none, agree k (Ne.symm same)]

/-- What a merge of segments should give: the keys of all, in ascending order, each with the value
that the last segment with the key holds. -/
structure Merges (segments : List (List (κ × β))) (stream : List (κ × β)) : Prop where
  ascending : stream.Pairwise fun a b => compare a.1 b.1 = .lt
  keys : ∀ key, key ∈ stream.map Prod.fst ↔ ∃ entries ∈ segments, key ∈ entries.map Prod.fst
  newest : ∀ entry ∈ stream, ∃ i : Nat, ∃ entries, segments[i]? = some entries ∧ entry ∈ entries ∧
    ∀ j, i < j → ∀ later ∈ segments[j]?, entry.1 ∉ later.map Prod.fst

omit [Ord κ] [Std.LawfulEqOrd κ] [Std.TransOrd κ] in
/-- The segment that the last put of a key comes from. -/
theorem newest_of_latest {key : κ} {value : β} {segments : List (List (κ × β))}
    (found : latest (puts segments.flatten) key = some (some value)) :
    ∃ i : Nat, ∃ entries, segments[i]? = some entries ∧ (key, value) ∈ entries ∧
      ∀ j, i < j → ∀ later ∈ segments[j]?, key ∉ later.map Prod.fst := by
  induction segments with
  | nil => cases found
  | cons first segments ih =>
    rw [flatten_cons, puts_append, latest_append] at found
    cases later : latest (puts segments.flatten) key with
    | some written =>
      rw [later, some_or] at found
      obtain ⟨i, entries, held, member, none_later⟩ := ih (later.trans found)
      refine ⟨i + 1, entries, held, member, ?_⟩
      intro j less after at_j
      cases j with
      | zero => omega
      | succ j => exact none_later j (by omega) after at_j
    | none =>
      rw [later, none_or] at found
      obtain ⟨_, same, member⟩ := value_of_mem_puts (mem_of_latest found)
      cases same
      refine ⟨0, first, rfl, member, ?_⟩
      intro j less after at_j
      cases j with
      | zero => omega
      | succ j =>
        intro named
        apply latest_puts_eq_none.mp later
        rw [map_flatten]
        exact mem_flatten_of_mem (mem_map_of_mem (mem_of_getElem? at_j)) named

omit [Std.LawfulEqOrd κ] in
/-- An ascending stream that means the same puts as the segments one after another merges them. -/
theorem Merges.of_latest {stream : List (κ × β)}
    (ascending : stream.Pairwise fun a b => compare a.1 b.1 = .lt)
    (same : ∀ k, latest (puts stream) k = latest (puts segments.flatten) k) :
    Merges segments stream where
  ascending := ascending
  keys key := by
    rw [← not_iff_not, ← latest_puts_eq_none, same, latest_puts_eq_none,
      map_flatten, mem_flatten]
    simp
  newest entry member := by
    apply newest_of_latest
    rw [← same]
    exact latest_puts_of_mem (OrderedMap.nodup_of_ascending ascending) member

end

end Library.KWayMerge

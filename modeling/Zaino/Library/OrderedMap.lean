import Mathlib.Data.List.Lex
import Mathlib.Data.List.Nodup

/-!
# Ordered maps and the writes made to them

An ordered map is a finite map whose keys are kept in the order of `compare`. It is written by
edits, each of which puts a value under a key or deletes the key, and a sequence of edits is
characterised by the last one that names a key (`getElem?_editAll`). Two restricted ways to write
are described beside it: an append, which accepts only a key above all that are held, and a
deletion of a range in chunks, each chunk the first entries that a scan of the range still finds.
-/

namespace Library

open List Std.ExtTreeMap

/-- A finite map whose keys are ordered by `compare`. -/
abbrev OrderedMap (κ β : Type) [Ord κ] : Type := Std.ExtTreeMap κ β compare

/-- One write: the value to hold under a key, or `none` to hold nothing there. -/
structure Edit (κ β : Type) where
  key : κ
  value : Option β
  deriving DecidableEq

namespace Edit

variable {κ β : Type}

/-- The edits that put the entries of a list. -/
def puts (entries : List (κ × β)) : List (Edit κ β) :=
  entries.map fun entry => ⟨entry.1, some entry.2⟩

/-- The edits that delete the keys of a list. -/
def deletes (keys : List κ) : List (Edit κ β) :=
  keys.map fun key => ⟨key, none⟩

@[simp]
theorem map_key_puts (entries : List (κ × β)) : (puts entries).map key = entries.map Prod.fst := by
  simp [puts]

theorem puts_cons (entry : κ × β) (entries : List (κ × β)) :
    puts (entry :: entries) = ⟨entry.1, some entry.2⟩ :: puts entries := rfl

theorem puts_append (first second : List (κ × β)) :
    puts (first ++ second) = puts first ++ puts second :=
  map_append

theorem value_of_mem_puts {entries : List (κ × β)} {e : Edit κ β} (member : e ∈ puts entries) :
    ∃ value, e.value = some value ∧ (e.key, value) ∈ entries := by
  obtain ⟨entry, entry_member, rfl⟩ := mem_map.mp member
  exact ⟨entry.2, rfl, entry_member⟩

variable [DecidableEq κ]

/-- What the last of the edits that name `k` says. -/
def latest : List (Edit κ β) → κ → Option (Option β)
  | [], _ => none
  | e :: rest, k => (latest rest k).or (if e.key = k then some e.value else none)

@[simp]
theorem latest_nil (k : κ) : latest ([] : List (Edit κ β)) k = none := rfl

theorem latest_cons (e : Edit κ β) (rest : List (Edit κ β)) (k : κ) :
    latest (e :: rest) k = (latest rest k).or (if e.key = k then some e.value else none) := rfl

theorem latest_append (first second : List (Edit κ β)) (k : κ) :
    latest (first ++ second) k = (latest second k).or (latest first k) := by
  induction first with
  | nil => simp
  | cons e first ih => rw [cons_append, latest_cons, latest_cons, ih, Option.or_assoc]

variable {edits : List (Edit κ β)} {k : κ}

theorem latest_eq_none : latest edits k = none ↔ ∀ e ∈ edits, e.key ≠ k := by
  induction edits with
  | nil => simp
  | cons e edits ih =>
    rw [latest_cons, Option.or_eq_none_iff, ih, forall_mem_cons]
    by_cases same : e.key = k <;> simp [same]

theorem mem_of_latest {value : Option β}
    (found : latest edits k = some value) : ⟨k, value⟩ ∈ edits := by
  induction edits with
  | nil => cases found
  | cons e edits ih =>
    rw [latest_cons] at found
    cases later : latest edits k with
    | some value' =>
      rw [later] at found
      cases found
      exact mem_cons_of_mem _ (ih later)
    | none =>
      rw [later, Option.none_or] at found
      by_cases same : e.key = k
      · rw [if_pos same] at found
        cases found
        subst same
        exact mem_cons_self
      · rw [if_neg same] at found
        cases found

/-- Puts that a test on the key leaves out do not count. -/
theorem latest_puts_filter (keep : κ → Bool) (entries : List (κ × β)) (k : κ) :
    latest (puts (entries.filter fun entry => keep entry.1)) k =
      if keep k then latest (puts entries) k else none := by
  induction entries with
  | nil => simp [puts]
  | cons entry entries ih =>
    rw [filter_cons, puts_cons, latest_cons]
    by_cases same : entry.1 = k
    · subst same
      cases kept : keep entry.1 <;> simp [kept, ih, puts_cons, latest_cons]
    · cases keep entry.1 <;> simp [same, ih, puts_cons, latest_cons]

theorem latest_deletes (keys : List κ) (k : κ) :
    latest (deletes keys : List (Edit κ β)) k = if k ∈ keys then some none else none := by
  induction keys with
  | nil => rfl
  | cons key keys ih =>
    rw [show deletes (key :: keys) = (⟨key, none⟩ : Edit κ β) :: deletes keys from rfl,
      latest_cons, ih]
    by_cases same : k = key
    · subst same
      by_cases later : k ∈ keys <;> simp [later]
    · by_cases later : k ∈ keys <;> simp [later, same, Ne.symm same]

/-- When no two edits name one key, every edit is the last for its key. -/
theorem latest_of_mem (distinct : (edits.map Edit.key).Nodup) {e : Edit κ β}
    (member : e ∈ edits) : latest edits e.key = some e.value := by
  induction edits with
  | nil => cases member
  | cons first edits ih =>
    rw [map_cons, nodup_cons] at distinct
    rw [latest_cons]
    rcases mem_cons.mp member with rfl | later
    · have none_later : latest edits e.key = none := by
        apply latest_eq_none.mpr
        intro other other_member same
        exact distinct.1 (same ▸ mem_map_of_mem other_member)
      rw [none_later, if_pos rfl, Option.none_or]
    · rw [ih distinct.2 later, Option.some_or]

variable {entries : List (κ × β)}

theorem latest_puts_eq_none : latest (puts entries) k = none ↔ k ∉ entries.map Prod.fst := by
  rw [latest_eq_none, ← map_key_puts, mem_map]
  simp only [not_exists, not_and, ne_eq]

theorem latest_puts_of_mem (distinct : (entries.map Prod.fst).Nodup) {value : β}
    (member : (k, value) ∈ entries) : latest (puts entries) k = some (some value) :=
  latest_of_mem (map_key_puts entries ▸ distinct) (e := ⟨k, some value⟩)
    (mem_map.mpr ⟨_, member, rfl⟩)

/-- The order of edits that name different keys does not matter. -/
theorem latest_perm {first second : List (Edit κ β)} (distinct : (first.map Edit.key).Nodup)
    (same : first.Perm second) (k : κ) : latest first k = latest second k := by
  have distinct' : (second.map Edit.key).Nodup := (same.map Edit.key).nodup_iff.mp distinct
  cases found : latest first k with
  | none =>
    symm
    apply latest_eq_none.mpr
    intro e member
    exact latest_eq_none.mp found e (same.mem_iff.mpr member)
  | some value =>
    exact (latest_of_mem distinct' (same.mem_iff.mp (mem_of_latest found))).symm

end Edit

namespace OrderedMap

variable {κ β : Type} [Ord κ] [Std.TransOrd κ]

/-- Apply one edit. -/
def edit (m : OrderedMap κ β) (e : Edit κ β) : OrderedMap κ β :=
  match e.value with
  | some value => m.insert e.key value
  | none => m.erase e.key

/-- Apply edits one after another. -/
def editAll (m : OrderedMap κ β) (edits : List (Edit κ β)) : OrderedMap κ β :=
  edits.foldl edit m

/-- The entries with `lower ≤ key < upper`, in key order. -/
def scanRange (m : OrderedMap κ β) (lower upper : κ) : List (κ × β) :=
  m.toList.filter fun entry => (compare lower entry.1).isLE && (compare entry.1 upper).isLT

/-- The map without its entries in `lower ≤ key < upper`. -/
def trimRange (m : OrderedMap κ β) (lower upper : κ) : OrderedMap κ β :=
  m.filter fun key _ => !((compare lower key).isLE && (compare key upper).isLT)

/-- Put a key that lies above every key held, or refuse. -/
def append (m : OrderedMap κ β) (key : κ) (value : β) : Option (OrderedMap κ β) :=
  match m.keys.getLast? with
  | none => some (m.insert key value)
  | some last => if compare last key = .lt then some (m.insert key value) else none

/-- Append the entries of a list in turn. -/
def appendAll (m : OrderedMap κ β) (entries : List (κ × β)) : Option (OrderedMap κ β) :=
  entries.foldlM (fun held entry => held.append entry.1 entry.2) m

variable (m : OrderedMap κ β)

theorem editAll_append (first second : List (Edit κ β)) :
    m.editAll (first ++ second) = (m.editAll first).editAll second :=
  foldl_append

@[simp]
theorem editAll_nil : m.editAll [] = m := rfl

theorem editAll_cons (e : Edit κ β) (rest : List (Edit κ β)) :
    m.editAll (e :: rest) = (m.edit e).editAll rest := rfl

/-! ## Appending -/

variable {m m' : OrderedMap κ β} {key : κ} {value : β} {entries : List (κ × β)}

theorem append_eq_some
    (accepted : m.append key value = some m') : m' = m.edit ⟨key, some value⟩ := by
  unfold append at accepted
  split at accepted
  · exact (Option.some.inj accepted).symm
  · split at accepted
    · exact (Option.some.inj accepted).symm
    · cases accepted

/-- What was appended lies at the end. -/
theorem getLast?_keys_append
    (accepted : m.append key value = some m') : m'.keys.getLast? = some key := by
  unfold append at accepted
  rw [← maxKey?_eq_getLast?_keys] at accepted ⊢
  split at accepted
  · next empty =>
    cases accepted
    rw [maxKey?_insert, empty]
    rfl
  · next last is_last =>
    split at accepted
    · next below =>
      cases accepted
      rw [maxKey?_insert, is_last]
      simp [below]
    · cases accepted

/-- Appends that are all accepted are plain puts. -/
theorem appendAll_eq_some
    (accepted : m.appendAll entries = some m') : m' = m.editAll (Edit.puts entries) := by
  induction entries generalizing m with
  | nil => exact (Option.some.inj accepted).symm
  | cons entry entries ih =>
    obtain ⟨middle, first, rest⟩ := Option.bind_eq_some_iff.mp accepted
    rw [ih rest, append_eq_some first]
    rfl

theorem getLast?_keys_appendAll {last : κ × β} (accepted : m.appendAll entries = some m')
    (is_last : entries.getLast? = some last) : m'.keys.getLast? = some last.1 := by
  obtain ⟨front, rfl⟩ := getLast?_eq_some_iff.mp is_last
  rw [appendAll, foldlM_append] at accepted
  obtain ⟨middle, _, final⟩ := Option.bind_eq_some_iff.mp accepted
  obtain ⟨appended, is_appended, same⟩ := Option.bind_eq_some_iff.mp final
  cases same
  exact getLast?_keys_append is_appended

variable [Std.LawfulEqOrd κ]

variable {m m' : OrderedMap κ β} {key : κ} {value : β} {entries : List (κ × β)}

theorem append_of_above (above : ∀ held ∈ m, compare held key = .lt) :
    m.append key value = some (m.edit ⟨key, some value⟩) := by
  unfold append
  split
  · rfl
  · next last is_last =>
    have held : last ∈ m := mem_keys.mp (mem_of_getLast? is_last)
    rw [if_pos (above last held)]
    rfl

/-- A key that was appended lies above every key held. -/
theorem above_of_append
    (accepted : m.append key value = some m') : ∀ held ∈ m, compare held key = .lt := by
  intro held member
  unfold append at accepted
  rw [← maxKey?_eq_getLast?_keys] at accepted
  split at accepted
  · next empty =>
    rw [maxKey?_eq_none_iff.mp empty] at member
    exact absurd member not_mem_empty
  · next last is_last =>
    split at accepted
    · next below =>
      have le_last : (compare held last).isLE :=
        maxKey?_eq_some_iff_mem_and_forall.mp is_last |>.2 held member
      exact Std.TransCmp.lt_of_isLE_of_lt le_last below
    · cases accepted

/-- Entries that were all appended lie above every key held. -/
theorem above_of_appendAll (accepted : m.appendAll entries = some m') :
    ∀ held ∈ m, ∀ entry ∈ entries, compare held entry.1 = .lt := by
  intro held member
  induction entries generalizing m with
  | nil => simp
  | cons entry entries ih =>
    obtain ⟨middle, first, rest⟩ := Option.bind_eq_some_iff.mp accepted
    have still_held : held ∈ middle := by
      rw [append_eq_some first]
      exact mem_insert.mpr (Or.inr member)
    rw [forall_mem_cons]
    exact ⟨above_of_append first held member, ih rest still_held⟩

/-- Ascending keys above all that are held are accepted. -/
theorem appendAll_of_above (ascending : entries.Pairwise fun a b => compare a.1 b.1 = .lt)
    (above : ∀ held ∈ m, ∀ entry ∈ entries, compare held entry.1 = .lt) :
    m.appendAll entries = some (m.editAll (Edit.puts entries)) := by
  induction entries generalizing m with
  | nil => rfl
  | cons entry entries ih =>
    rw [pairwise_cons] at ascending
    have first : m.append entry.1 entry.2 = some (m.edit ⟨entry.1, some entry.2⟩) :=
      append_of_above fun held member => above held member entry mem_cons_self
    have rest : (m.edit ⟨entry.1, some entry.2⟩).appendAll entries =
        some ((m.edit ⟨entry.1, some entry.2⟩).editAll (Edit.puts entries)) := by
      apply ih ascending.2
      intro held member later later_member
      rcases mem_insert.mp member with same | before
      · rw [← Std.LawfulEqOrd.eq_of_compare same]
        exact ascending.1 later later_member
      · exact above held before later (mem_cons_of_mem _ later_member)
    rw [appendAll, foldlM_cons, first]
    exact rest

/-! ## Ranges -/

theorem mem_scanRange {lower upper : κ} {entry : κ × β} : entry ∈ m.scanRange lower upper ↔
      m[entry.1]? = some entry.2 ∧ (compare lower entry.1).isLE = true ∧
        compare entry.1 upper = .lt := by
  rw [scanRange, mem_filter, mem_toList_iff_getElem?_eq_some,
    Bool.and_eq_true, Ordering.isLT_iff_eq_lt]

theorem getElem?_trimRange (m : OrderedMap κ β) (lower upper k : κ) :
    (m.trimRange lower upper)[k]? =
      if (compare lower k).isLE && (compare k upper).isLT then none else m[k]? := by
  rw [trimRange, getElem?_filter']
  cases (compare lower k).isLE && (compare k upper).isLT <;> cases m[k]? <;> rfl

theorem trimRange_idem (m : OrderedMap κ β) (lower upper : κ) :
    (m.trimRange lower upper).trimRange lower upper = m.trimRange lower upper := by
  apply Std.ExtTreeMap.ext_getElem?
  intro k
  rw [getElem?_trimRange, getElem?_trimRange]
  split <;> rfl

theorem trimRange_of_scanRange_nil {lower upper : κ}
    (empty : m.scanRange lower upper = []) : m.trimRange lower upper = m := by
  apply Std.ExtTreeMap.ext_getElem?
  intro k
  rw [getElem?_trimRange]
  split
  · next inside =>
    cases held : m[k]? with
    | none => rfl
    | some value =>
      have found : (k, value) ∈ m.scanRange lower upper := by
        rw [mem_scanRange]
        exact ⟨held, by simpa [Ordering.isLT_iff_eq_lt] using inside⟩
      rw [empty] at found
      cases found
  · rfl

/-! ## Lookups after edits -/

omit [Std.LawfulEqOrd κ] in
theorem nodup_of_ascending (ascending : entries.Pairwise fun a b => compare a.1 b.1 = .lt) :
    (entries.map Prod.fst).Nodup := by
  rw [nodup_iff_pairwise_ne, pairwise_map]
  refine ascending.imp fun less same => ?_
  rw [same, Std.ReflOrd.compare_self] at less
  cases less

omit [Std.LawfulEqOrd κ] in
theorem nodup_keys_toList (m : OrderedMap κ β) : (m.toList.map Prod.fst).Nodup :=
  nodup_of_ascending ordered_keys_toList

variable [DecidableEq κ]

theorem getElem?_edit (m : OrderedMap κ β) (e : Edit κ β) (k : κ) :
    (m.edit e)[k]? = if e.key = k then e.value else m[k]? := by
  unfold edit
  cases written : e.value with
  | some value => simp [Std.ExtTreeMap.getElem?_insert]
  | none => simp [Std.ExtTreeMap.getElem?_erase]

/-- After a sequence of edits a key holds what the last edit that names it says, and what it held
before when none does. -/
theorem getElem?_editAll (m : OrderedMap κ β) (edits : List (Edit κ β)) (k : κ) :
    (m.editAll edits)[k]? = (Edit.latest edits k).getD m[k]? := by
  induction edits generalizing m with
  | nil => rfl
  | cons e edits ih =>
    rw [editAll_cons, ih, getElem?_edit, Edit.latest_cons]
    cases Edit.latest edits k with
    | some value => rfl
    | none => by_cases same : e.key = k <;> simp [same]

variable {k : κ}

theorem getElem?_puts_of_mem (m : OrderedMap κ β) (distinct : (entries.map Prod.fst).Nodup)
    (member : (k, value) ∈ entries) : (m.editAll (Edit.puts entries))[k]? = some value := by
  rw [getElem?_editAll, Edit.latest_puts_of_mem distinct member]
  rfl

theorem getElem?_puts_of_not_mem (m : OrderedMap κ β) (unnamed : k ∉ entries.map Prod.fst) :
    (m.editAll (Edit.puts entries))[k]? = m[k]? := by
  rw [getElem?_editAll, Edit.latest_puts_eq_none.mpr unnamed]
  rfl

/-- Edits matter only through the last one for each key. -/
theorem editAll_congr (m : OrderedMap κ β) {first second : List (Edit κ β)}
    (same : ∀ k, Edit.latest first k = Edit.latest second k) :
    m.editAll first = m.editAll second := by
  apply Std.ExtTreeMap.ext_getElem?
  intro k
  rw [getElem?_editAll, getElem?_editAll, same]

/-- Putting all the entries of a map. -/
theorem latest_puts_toList (m : OrderedMap κ β) (k : κ) :
    Edit.latest (Edit.puts m.toList) k = m[k]?.map some := by
  cases held : m[k]? with
  | none =>
    refine Edit.latest_puts_eq_none.mpr fun named => ?_
    obtain ⟨entry, member, rfl⟩ := mem_map.mp named
    rw [mem_toList_iff_getElem?_eq_some.mp member] at held
    cases held
  | some value =>
    exact Edit.latest_puts_of_mem (nodup_keys_toList m)
      (mem_toList_iff_getElem?_eq_some.mpr held)

/-- Collecting Edit.puts in a map first, and then putting what was collected, changes nothing. -/
theorem editAll_puts_collected (m : OrderedMap κ β) (entries : List (κ × β)) :
    m.editAll (Edit.puts ((∅ : OrderedMap κ β).editAll (Edit.puts entries)).toList) =
      m.editAll (Edit.puts entries) := by
  apply editAll_congr
  intro k
  rw [latest_puts_toList, getElem?_editAll]
  cases found : Edit.latest (Edit.puts entries) k with
  | none => simp
  | some value =>
    obtain ⟨written, is_put, _⟩ := Edit.value_of_mem_puts (Edit.mem_of_latest found)
    rw [show value = some written from is_put]
    rfl

/-! ## Deleting a range in chunks -/

theorem editAll_deletes (m : OrderedMap κ β) (keys : List κ) :
    m.editAll (Edit.deletes keys) = m.filter fun k _ => decide (k ∉ keys) := by
  apply Std.ExtTreeMap.ext_getElem?
  intro k
  rw [getElem?_editAll, getElem?_filter', Edit.latest_deletes]
  by_cases deleted : k ∈ keys
  · cases m[k]? <;> simp [deleted]
  · cases m[k]? <;> simp [deleted, Option.filter]

/-- Deleting the first entries of a range leaves the others of the range to be found. -/
theorem scanRange_deletes_take (m : OrderedMap κ β) (lower upper : κ) (chunk : Nat) :
    (m.editAll (Edit.deletes (((m.scanRange lower upper).take chunk).map Prod.fst))).scanRange
      lower upper = (m.scanRange lower upper).drop chunk := by
  have distinct : ((m.scanRange lower upper).map Prod.fst).Nodup :=
    (nodup_keys_toList m).sublist (filter_sublist.map Prod.fst)
  generalize range : m.scanRange lower upper = found at distinct ⊢
  have swapped : ∀ keep : κ × β → Bool, (m.toList.filter keep).filter
      (fun entry => (compare lower entry.1).isLE && (compare entry.1 upper).isLT) =
        found.filter keep := by
    intro keep
    rw [← range, scanRange, filter_filter, filter_filter]
    apply filter_congr
    intro entry _
    rw [Bool.and_comm]
  rw [editAll_deletes, scanRange, toList_filter, swapped,
    ← take_append_drop chunk found, filter_append]
  rw [← take_append_drop chunk found, map_append, nodup_append] at distinct
  rw [filter_eq_nil_iff.mpr, filter_eq_self.mpr]
  · simp
  · intro entry member
    have apart : entry.1 ∉ (found.take chunk).map Prod.fst := by
      intro early
      exact distinct.2.2 _ early _ (mem_map_of_mem member) rfl
    simpa using apart
  · intro entry member
    have early : entry.1 ∈ (found.take chunk).map Prod.fst := mem_map_of_mem member
    simpa using early

/-- Deleting some of a range first does not change what is left without the range. -/
theorem trimRange_deletes_take (m : OrderedMap κ β) (lower upper : κ) (chunk : Nat) :
    (m.editAll (Edit.deletes (((m.scanRange lower upper).take chunk).map Prod.fst))).trimRange
      lower upper = m.trimRange lower upper := by
  apply Std.ExtTreeMap.ext_getElem?
  intro k
  rw [getElem?_trimRange, getElem?_trimRange]
  split
  · rfl
  · next outside =>
    rw [editAll_deletes, getElem?_filter']
    have kept : k ∉ ((m.scanRange lower upper).take chunk).map Prod.fst := by
      intro deleted
      obtain ⟨entry, early, rfl⟩ := mem_map.mp deleted
      have found := mem_scanRange.mp (mem_of_mem_take early)
      exact outside (by simpa [Ordering.isLT_iff_eq_lt] using found.2)
    cases m[k]? with
    | none => rfl
    | some value => simp only [Option.filter, decide_eq_true kept, if_true]

/-! ## Maps made of puts -/

/-- The map that holds the entries of a list, a later one in place of an earlier one. -/
def ofEntries (entries : List (κ × β)) : OrderedMap κ β :=
  (∅ : OrderedMap κ β).editAll (Edit.puts entries)

omit [Std.LawfulEqOrd κ] [DecidableEq κ] in
theorem ofEntries_append (first second : List (κ × β)) :
    (ofEntries (first ++ second) : OrderedMap κ β) =
      (ofEntries first).editAll (Edit.puts second) := by
  rw [ofEntries, Edit.puts_append, editAll_append, ofEntries]

variable {entries : List (κ × β)} {k : κ} {value : β} (distinct : (entries.map Prod.fst).Nodup)

include distinct

theorem getElem?_editAll_puts {m : OrderedMap κ β} :
    (m.editAll (Edit.puts entries))[k]? = some value ↔
      (k, value) ∈ entries ∨ (k ∉ entries.map Prod.fst ∧ m[k]? = some value) := by
  by_cases named : k ∈ entries.map Prod.fst
  · obtain ⟨⟨_, held⟩, member, rfl⟩ := mem_map.mp named
    rw [m.getElem?_puts_of_mem distinct member]
    constructor
    · rintro same
      cases same
      exact Or.inl member
    · rintro (other | ⟨absent, _⟩)
      · exact (m.getElem?_puts_of_mem distinct member).symm.trans
          (m.getElem?_puts_of_mem distinct other)
      · exact absurd named absent
  · have absent : (k, value) ∉ entries := fun member => named (mem_map.mpr ⟨_, member, rfl⟩)
    rw [getElem?_puts_of_not_mem m named]
    simp [named, absent]

/-- A map made of puts under distinct keys holds exactly them. -/
theorem getElem?_ofEntries :
    (ofEntries entries : OrderedMap κ β)[k]? = some value ↔ (k, value) ∈ entries := by
  rw [ofEntries, getElem?_editAll_puts distinct]
  simp

theorem keys_ofEntries_perm :
    (ofEntries entries : OrderedMap κ β).keys.Perm (entries.map Prod.fst) := by
  have keys_nodup : (ofEntries entries : OrderedMap κ β).keys.Nodup := by
    refine distinct_keys.imp fun {a b} apart same => apart ?_
    rw [same]
    exact Std.ReflCmp.compare_self
  rw [perm_ext_iff_of_nodup keys_nodup distinct]
  intro k
  rw [Std.ExtTreeMap.mem_keys, mem_iff_isSome_getElem?, Option.isSome_iff_exists]
  simp [getElem?_ofEntries distinct]

omit distinct

/-- What the entries do not name is not held. -/
theorem getElem?_ofEntries_eq_none
    (unnamed : k ∉ entries.map Prod.fst) : (ofEntries entries : OrderedMap κ β)[k]? = none := by
  rw [ofEntries, getElem?_puts_of_not_mem ∅ unnamed]
  simp

/-- The order of puts under distinct keys does not matter. -/
theorem editAll_puts_perm (m : OrderedMap κ β) {first second : List (κ × β)}
    (distinct : (first.map Prod.fst).Nodup) (same : first.Perm second) :
    m.editAll (Edit.puts first) = m.editAll (Edit.puts second) := by
  apply editAll_congr
  apply Edit.latest_perm
  · rw [Edit.map_key_puts]
    exact distinct
  · exact same.map _

/-- Deleting what was put leaves what was there, when nothing was under the deleted keys. -/
theorem editAll_puts_deletes {m : OrderedMap κ β} {keys : List κ}
    (named : ∀ entry ∈ entries, entry.1 ∈ keys) (absent : ∀ key ∈ keys, m[key]? = none) :
    (m.editAll (Edit.puts entries)).editAll (Edit.deletes keys) = m := by
  apply Std.ExtTreeMap.ext_getElem?
  intro k
  rw [editAll_deletes, getElem?_filter']
  by_cases deleted : k ∈ keys
  · rw [absent k deleted]
    cases (m.editAll (Edit.puts entries))[k]? <;> simp [deleted]
  · have unnamed : k ∉ entries.map Prod.fst := by
      intro member
      obtain ⟨entry, entry_member, rfl⟩ := mem_map.mp member
      exact deleted (named entry entry_member)
    rw [getElem?_puts_of_not_mem m unnamed]
    cases m[k]? <;> simp [deleted]

end OrderedMap

end Library

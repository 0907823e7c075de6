import Mathlib.Algebra.Ring.Nat
import Mathlib.Data.List.Sort
import Mathlib.Data.List.Lex
import Mathlib.Data.List.Perm.Basic

/-!
# Sorted, deduplicated and numbered lists

Lists as code that collects answers from several sources builds them: numbered by 32-bit
positions (`enumerated`), sorted by a key (`sortByKey`), with adjacent repetitions removed
(`dedupAdjacent`), and put together from parts. Answers are compared as permutations, or through
their members where nothing is repeated.
-/

namespace Library

open List

variable {α β κ : Type}

/-! ## Numbering -/

/-- A number as a 32-bit one, if it fits. -/
def u32TryFrom (n : Nat) : Option UInt32 :=
  if n < 2 ^ 32 then some (UInt32.ofNat n) else none

theorem u32TryFrom_eq_some {n : Nat} {u : UInt32} : u32TryFrom n = some u ↔ u.toNat = n := by
  unfold u32TryFrom
  split
  · next fits =>
    rw [Option.some.injEq, ← UInt32.toNat_inj, UInt32.toNat_ofNat_of_lt' fits]
    exact eq_comm
  · next large =>
    have bound := u.toNat_lt
    refine ⟨fun absurd => (nomatch absurd), fun same => ?_⟩
    omega

theorem u32TryFrom_of_lt {n : Nat} (fits : n < 2 ^ 32) : u32TryFrom n = some (UInt32.ofNat n) :=
  if_pos fits

/-- The items with their positions; an item whose position does not fit is left out. -/
def enumerated (items : List α) : List (UInt32 × α) :=
  items.zipIdx.filterMap fun entry => (u32TryFrom entry.2).map fun index => (index, entry.1)

theorem mem_enumerated {items : List α} {index : UInt32} {x : α} :
    (index, x) ∈ enumerated items ↔ items[index.toNat]? = some x := by
  simp only [enumerated, mem_filterMap, Option.map_eq_some_iff, u32TryFrom_eq_some,
    Prod.mk.injEq, Prod.exists, mk_mem_zipIdx_iff_getElem?]
  constructor
  · intro found
    rcases found with ⟨y, n, at_n, u, fits, same, is_x⟩
    rw [← same, fits, ← is_x]
    exact at_n
  · intro at_index
    exact ⟨x, index.toNat, at_index, index, rfl, rfl, rfl⟩

theorem nodup_enumerated (items : List α) : ((enumerated items).map Prod.fst).Nodup := by
  have positions : (enumerated items).map Prod.fst =
      (items.zipIdx.map Prod.snd).filterMap u32TryFrom := by
    rw [enumerated, map_filterMap, filterMap_map]
    simp [Function.comp_def]
  rw [positions, zipIdx_map_snd]
  refine List.Nodup.filterMap (fun n n' index at_n at_n' => ?_) nodup_range'
  exact (u32TryFrom_eq_some.mp at_n).symm.trans (u32TryFrom_eq_some.mp at_n')

/-- Where every position fits, no item is left out. -/
theorem enumerated_eq_map {items : List α} (fits : items.length ≤ 2 ^ 32) :
    enumerated items = items.zipIdx.map fun entry => (UInt32.ofNat entry.2, entry.1) := by
  refine filterMap_eq_map_iff_forall_eq_some.mpr fun entry member => ?_
  have position : entry.2 < items.length := (mem_zipIdx' member).1
  rw [u32TryFrom_of_lt (by omega), Option.map_some]

theorem map_snd_enumerated {items : List α} (fits : items.length ≤ 2 ^ 32) :
    (enumerated items).map Prod.snd = items := by
  rw [enumerated_eq_map fits, map_map]
  exact zipIdx_map_fst 0 items

/-! ## Sorting and removing repetitions -/

/-- The items in the order of their keys, those with one key in the order they had. -/
def sortByKey (key : α → List Nat) (items : List α) : List α :=
  items.insertionSort fun x y => key x ≤ key y

theorem sortByKey_perm (key : α → List Nat) (items : List α) : (sortByKey key items).Perm items :=
  perm_insertionSort _ items

theorem pairwise_sortByKey (key : α → List Nat) (items : List α) :
    (sortByKey key items).Pairwise fun x y => key x ≤ key y := by
  exact pairwise_insertionSort _ items

section

variable [DecidableEq α] {items : List α}

/-- The items without those equal to the one before. -/
def dedupAdjacent : List α → List α
  | [] => []
  | [x] => [x]
  | x :: y :: rest => if x = y then dedupAdjacent (y :: rest) else x :: dedupAdjacent (y :: rest)

theorem mem_dedupAdjacent {z : α} : z ∈ dedupAdjacent items ↔ z ∈ items := by
  induction items using dedupAdjacent.induct with
  | case1 => rfl
  | case2 x => rfl
  | case3 y rest ih =>
    rw [dedupAdjacent, if_pos rfl, ih]
    simp
  | case4 x y rest differ ih =>
    rw [dedupAdjacent, if_neg differ, mem_cons, ih, ← mem_cons]

/-- In a sorted list equal items are adjacent, where different items have different keys. -/
theorem nodup_dedupAdjacent {key : α → List Nat} (sorted : items.Pairwise fun x y => key x ≤ key y)
    (faithful : ∀ x ∈ items, ∀ y ∈ items, key x = key y → x = y) : (dedupAdjacent items).Nodup := by
  induction items using dedupAdjacent.induct with
  | case1 => exact nodup_nil
  | case2 x => exact nodup_singleton x
  | case3 y rest ih =>
    rw [dedupAdjacent, if_pos rfl]
    exact ih sorted.tail fun a at_a b at_b =>
      faithful a (mem_cons_of_mem y at_a) b (mem_cons_of_mem y at_b)
  | case4 x y rest differ ih =>
    rw [dedupAdjacent, if_neg differ, nodup_cons, mem_dedupAdjacent]
    refine ⟨fun again => ?_, ih sorted.tail fun a at_a b at_b =>
      faithful a (mem_cons_of_mem x at_a) b (mem_cons_of_mem x at_b)⟩
    rcases mem_cons.mp again with same | later
    · exact differ same
    -- A later copy of `x` has the key of everything in between, of `y` in particular.
    · have up : key x ≤ key y := rel_of_pairwise_cons sorted mem_cons_self
      have down : key y ≤ key x := rel_of_pairwise_cons sorted.tail later
      exact differ (faithful x mem_cons_self y
        (mem_cons_of_mem x mem_cons_self) (le_antisymm up down))

end

/-! ## Parts of a list -/

variable {items : List α} {p q : α → Bool} {x : α} {γ ε τ : Type} {y : β} {decode : α → Option β}
  {related : α → β → Prop} {images : List β} {group : α → List β}

/-- The search for the only item with a property finds it. -/
theorem findIdx?_eq_some_of_unique {i : Nat} (at_i : items[i]? = some x) (holds : p x = true)
    (unique : ∀ j y, items[j]? = some y → p y = true → j = i) : items.findIdx? p = some i := by
  cases found : items.findIdx? p with
  | none =>
    have missing := findIdx?_eq_none_iff.mp found x (mem_of_getElem? at_i)
    rw [holds] at missing
    cases missing
  | some j =>
    rcases findIdx?_eq_some_iff_getElem.mp found with ⟨bound, at_j, _⟩
    rw [unique j _ (getElem?_eq_getElem bound) at_j]

variable (unique : ∀ x ∈ items, ∀ y ∈ items, q x = true → q y = true → x = y)

include unique

/-- A search for what only one item satisfies finds that item. -/
theorem find?_eq_some_iff_of_unique : items.find? q = some x ↔ x ∈ items ∧ q x = true := by
  constructor
  · intro found
    exact ⟨mem_of_find?_eq_some found, find?_some found⟩
  · intro holds
    cases found : items.find? q with
    | none => exact absurd holds.2 (find?_eq_none.mp found x holds.1)
    | some y =>
      rw [unique y (mem_of_find?_eq_some found) x holds.1 (find?_some found) holds.2]

/-- Among the selected items such a search finds the item if it is selected. -/
theorem find?_filter_of_unique : (items.filter p).find? q = (items.find? q).filter p := by
  have unique' : ∀ x ∈ items.filter p, ∀ y ∈ items.filter p, q x = true → q y = true → x = y :=
    fun x at_x y at_y => unique x (mem_of_mem_filter at_x) y (mem_of_mem_filter at_y)
  refine Option.ext fun x => ?_
  rw [find?_eq_some_iff_of_unique unique', Option.filter_eq_some_iff,
    find?_eq_some_iff_of_unique unique, mem_filter]
  exact and_right_comm

omit unique

theorem optionFilter_congr {found : Option α}
    (same : ∀ x, found = some x → p x = q x) : found.filter p = found.filter q := by
  cases found with
  | none => rfl
  | some x => rw [Option.filter_some, Option.filter_some, same x rfl]

theorem findSome?_congr {f g : α → Option β} (same : ∀ x ∈ items, f x = g x) :
    items.findSome? f = items.findSome? g := by
  induction items with
  | nil => rfl
  | cons x rest ih =>
    rw [findSome?_cons, findSome?_cons, same x mem_cons_self,
      ih fun y member => same y (mem_cons_of_mem x member)]

/-- A search for an item and a search for what items yield stop at the same item. -/
theorem map_find?_eq_map_findSome? {f : α → Option β} {g : α → γ} {h : β → γ}
    (yields : ∀ x ∈ items, p x = (f x).isSome)
    (agrees : ∀ x ∈ items, ∀ y, f x = some y → h y = g x) :
    (items.find? p).map g = (items.findSome? f).map h := by
  induction items with
  | nil => rfl
  | cons x rest ih =>
    have ih' := ih (fun y member => yields y (mem_cons_of_mem x member))
      (fun y member => agrees y (mem_cons_of_mem x member))
    have here := yields x mem_cons_self
    rw [find?_cons, findSome?_cons]
    cases yielded : f x with
    | none =>
      rw [yielded, Option.isSome_none] at here
      rw [here]
      exact ih'
    | some y =>
      rw [yielded, Option.isSome_some] at here
      rw [here]
      exact congrArg some (agrees x mem_cons_self y yielded).symm

theorem ok_bind (x : α) (f : α → Except ε β) : (Except.ok x >>= f) = f x := rfl

variable {f : α → Except ε β}

theorem bind_eq_ok {x : Except ε α} : (x >>= f) = .ok y ↔ ∃ a, x = .ok a ∧ f a = .ok y := by
  cases x with
  | error e => simp [bind, Except.bind]
  | ok a => simp [bind, Except.bind]

theorem exists_error_of_not_isOk {x : Except ε α} (fails : x.isOk = false) : ∃ e, x = .error e := by
  cases x with
  | error e => exact ⟨e, rfl⟩
  | ok value => cases fails

/-- The value, or an error in its absence. -/
def okOr {ε : Type} (value : Option β) (e : ε) : Except ε β :=
  match value with
  | some value => .ok value
  | none => .error e

theorem okOr_eq_ok {value : Option β} {e : ε} {x : β} : okOr value e = .ok x ↔ value = some x := by
  cases value <;> simp [okOr]

/-- A decoding traversal that meets nothing undecodable. -/
theorem mapM_decode_eq_ok (e : ε) (decodes : ∀ x ∈ items, (decode x).isSome) :
    (items.mapM fun x => okOr (decode x) e) = .ok (items.filterMap decode) := by
  induction items with
  | nil => rfl
  | cons x rest ih =>
    rcases Option.isSome_iff_exists.mp (decodes x mem_cons_self) with ⟨y, is_y⟩
    rw [mapM_cons, ih fun later member => decodes later (mem_cons_of_mem _ member),
      filterMap_cons, is_y]
    rfl

theorem map_mapIdx_eq_map {f : Nat → α → β} {g : β → γ} {h : α → γ} (same : ∀ i x, g (f i x) = h x)
    (items : List α) : (items.mapIdx f).map g = items.map h := by
  apply ext_getElem
  · simp
  · intro i _ _
    simp [same]

theorem exists_right_of_forall₂ (all : List.Forall₂ related items images) (member : x ∈ items) :
    ∃ y ∈ images, related x y := by
  induction all with
  | nil => exact absurd member not_mem_nil
  | cons relates _ ih =>
    rcases mem_cons.mp member with same | later
    · exact ⟨_, mem_cons_self, same ▸ relates⟩
    · rcases ih later with ⟨y, at_y, relates_y⟩
      exact ⟨y, mem_cons_of_mem _ at_y, relates_y⟩

theorem exists_left_of_forall₂ (all : List.Forall₂ related items images) (member : y ∈ images) :
    ∃ x ∈ items, related x y :=
  exists_right_of_forall₂ (List.Forall₂.flip all) member

theorem exists_forall₂ (relates : ∀ x ∈ items, ∃ y, related x y) :
    ∃ images, List.Forall₂ related items images := by
  induction items with
  | nil => exact ⟨[], List.Forall₂.nil⟩
  | cons x rest ih =>
    obtain ⟨⟨y, first⟩, later⟩ := forall_mem_cons.mp relates
    obtain ⟨images, all⟩ := ih later
    exact ⟨y :: images, List.Forall₂.cons first all⟩

/-- A traversal succeeds if each of its steps does, with the image of each item in its place. -/
theorem mapM_eq_ok_iff :
    items.mapM f = .ok images ↔ List.Forall₂ (fun x y => f x = .ok y) items images := by
  induction items generalizing images with
  | nil => simp [pure, Except.pure, eq_comm]
  | cons x rest ih =>
    rw [mapM_cons, forall₂_cons_left_iff]
    simp [bind_eq_ok, ih, pure, Except.pure, @eq_comm _ images]

theorem mapM_eq_some_iff {f : α → Option β} :
    items.mapM f = some images ↔ List.Forall₂ (fun x y => f x = some y) items images := by
  induction items generalizing images with
  | nil => simp [eq_comm]
  | cons x rest ih =>
    rw [mapM_cons, forall₂_cons_left_iff]
    simp [Option.bind_eq_some_iff, ih, @eq_comm _ images]

theorem mapM_eq_ok {g : α → β}
    (succeeds : ∀ x ∈ items, f x = .ok (g x)) : items.mapM f = .ok (items.map g) :=
  mapM_eq_ok_iff.mpr (forall₂_map_right_iff.mpr (forall₂_same.mpr succeeds))

/-- A traversal each of whose steps yields something of a kind. -/
theorem exists_mapM_eq_some {f : α → Option β}
    (yields : ∀ x ∈ items, ∃ y, f x = some y ∧ related x y) :
    ∃ images, items.mapM f = some images ∧ List.Forall₂ related items images := by
  obtain ⟨images, all⟩ := exists_forall₂ yields
  exact ⟨images, mapM_eq_some_iff.mpr (all.imp fun _ _ both => both.1), all.imp fun _ _ both => both.2⟩

/-- A traversal each of whose steps returns something that shows where it came from. -/
theorem exists_mapM_eq_ok (origin : β → γ) {g : α → γ}
    (returns : ∀ x ∈ items, ∃ y, f x = .ok y ∧ origin y = g x) :
    ∃ images, items.mapM f = .ok images ∧ images.map origin = items.map g := by
  obtain ⟨images, all⟩ := exists_forall₂ returns
  refine ⟨images, mapM_eq_ok_iff.mpr (all.imp fun _ _ both => both.1), ?_⟩
  rw [← forall₂_eq_eq_eq, forall₂_map_left_iff, forall₂_map_right_iff]
  exact (all.imp fun _ _ both => both.2).flip

/-- A reordering of images is the image of a reordering. -/
theorem exists_perm_of_perm_map {f : α → β} (reordered : images.Perm (items.map f)) :
    ∃ origins : List α, images = origins.map f ∧ origins.Perm items := by
  have mapped : List.Forall₂ (fun y x => y = f x) (items.map f) items :=
    forall₂_map_left_iff.mpr (forall₂_same.mpr fun _ _ => rfl)
  obtain ⟨origins, same, perm⟩ := perm_comp_forall₂ reordered mapped
  refine ⟨origins, ?_, perm⟩
  rwa [← forall₂_eq_eq_eq, forall₂_map_right_iff]

theorem flatMap_ite_singleton (items : List α) (p : α → Bool) (f : α → β) :
    (items.flatMap fun x => if p x then [f x] else []) = (items.filter p).map f := by
  induction items with
  | nil => rfl
  | cons x rest ih =>
    rw [flatMap_cons, ih, filter_cons]
    cases p x <;> rfl

theorem append_interchange_perm (a b c d : List α) :
    ((a ++ b) ++ (c ++ d)).Perm ((a ++ c) ++ (b ++ d)) := by
  rw [append_assoc, append_assoc]
  refine List.Perm.append_left a ?_
  rw [← append_assoc, ← append_assoc]
  exact perm_append_comm.append_right d

/-- An item of two mapped selections. -/
theorem mem_map_filter_append {β γ : Type} {others : List β} {q : β → Bool} {f : α → γ} {g : β → γ}
    {z : γ} : z ∈ (items.filter p).map f ++ (others.filter q).map g ↔
      (∃ x ∈ items, p x = true ∧ f x = z) ∨ ∃ y ∈ others, q y = true ∧ g y = z := by
  simp only [mem_append, mem_map, mem_filter, and_assoc]

/-- Two disjoint selections make up their union. -/
theorem filter_append_filter_perm {r : α → Bool}
    (disjoint : ∀ x ∈ items, ¬ (p x = true ∧ q x = true))
    (cover : ∀ x ∈ items, r x = (p x || q x)) :
    (items.filter p ++ items.filter q).Perm (items.filter r) := by
  induction items with
  | nil => rfl
  | cons x rest ih =>
    have rest_perm := ih (fun y at_y => disjoint y (mem_cons_of_mem x at_y))
      (fun y at_y => cover y (mem_cons_of_mem x at_y))
    have not_both := disjoint x mem_cons_self
    rw [filter_cons, filter_cons, filter_cons, cover x mem_cons_self]
    cases in_p : p x <;> cases in_q : q x
    · simpa using rest_perm
    · simpa using perm_middle.trans (rest_perm.cons x)
    · simpa using rest_perm.cons x
    · exact absurd ⟨in_p, in_q⟩ not_both

theorem count_map_filter [DecidableEq β] {tag : α → β} (distinct : (items.map tag).Nodup)
    (p : α → Bool) (member : x ∈ items) :
    ((items.filter p).map tag).count (tag x) = (p x).toNat := by
  have distinct' : ((items.filter p).map tag).Nodup :=
    distinct.sublist (filter_sublist.map tag)
  cases selected : p x with
  | true =>
    exact count_eq_one_of_mem distinct'
      (mem_map_of_mem (mem_filter.mpr ⟨member, selected⟩))
  | false =>
    refine count_eq_zero.mpr fun again => ?_
    rcases mem_map.mp again with ⟨y, at_y, same⟩
    rcases mem_filter.mp at_y with ⟨y_member, y_selected⟩
    rw [inj_on_of_nodup_map distinct y_member member same, selected] at y_selected
    cases y_selected

/-- Two selections together are a third one exactly when every item is selected as often. -/
theorem filter_append_filter_perm_iff [DecidableEq β] {tag : α → β}
    (distinct : (items.map tag).Nodup) (p q r : α → Bool) :
    ((items.filter p).map tag ++ (items.filter q).map tag).Perm ((items.filter r).map tag) ↔
      ∀ x ∈ items, (p x).toNat + (q x).toNat = (r x).toNat := by
  constructor
  · intro perm x member
    have counts := perm.count_eq (tag x)
    rw [count_append, count_map_filter distinct p member, count_map_filter distinct q member,
      count_map_filter distinct r member] at counts
    exact counts
  · intro counts
    rw [← map_append]
    refine (filter_append_filter_perm (fun x member both => ?_) fun x member => ?_).map tag
    · have count := counts x member
      have at_most := Bool.toNat_le (r x)
      rw [both.1, both.2, Bool.toNat_true] at count
      omega
    · have count := counts x member
      revert count
      cases p x <;> cases q x <;> cases r x <;> decide

/-- Selecting groups by a property all their members share selects the members. -/
theorem flatMap_filter_of_shared {q : β → Bool} (shared : ∀ x ∈ items, ∀ y ∈ group x, q y = p x) :
    (items.filter p).flatMap group = (items.flatMap group).filter q := by
  induction items with
  | nil => rfl
  | cons x rest ih =>
    have rest_eq := ih fun z at_z => shared z (mem_cons_of_mem x at_z)
    rw [flatMap_cons, filter_append, ← rest_eq, filter_cons]
    cases selected : p x with
    | true =>
      have all : (group x).filter q = group x := filter_eq_self.mpr fun y at_y =>
        (shared x mem_cons_self y at_y).trans selected
      rw [all, if_pos rfl, flatMap_cons]
    | false =>
      have none : (group x).filter q = [] := filter_eq_nil_iff.mpr fun y at_y =>
        ne_true_of_eq_false ((shared x mem_cons_self y at_y).trans selected)
      rw [none, if_neg Bool.false_ne_true, nil_append]

/-- Groups that carry the distinct keys of what they come from share no tag. -/
theorem nodup_map_flatMap {key : α → κ} {tag : β → τ} (owner : τ → κ)
    (distinct : (items.map key).Nodup) (within : ∀ x ∈ items, ((group x).map tag).Nodup)
    (owned : ∀ x ∈ items, ∀ y ∈ group x, owner (tag y) = key x) :
    ((items.flatMap group).map tag).Nodup := by
  rw [map_flatMap, nodup_flatMap]
  refine ⟨within, ?_⟩
  have apart := pairwise_map.mp distinct
  refine apart.imp_of_mem fun {x y} at_x at_y differ => ?_
  refine disjoint_left.mpr fun t in_x in_y => ?_
  rcases mem_map.mp in_x with ⟨b, b_of_x, rfl⟩
  rcases mem_map.mp in_y with ⟨c, c_of_y, same⟩
  exact differ ((owned x at_x b b_of_x).symm.trans ((congrArg owner same).symm.trans
    (owned y at_y c c_of_y)))

/-- A fold that adds sizes, and refuses a total past a bound, returns a total within the bound. -/
theorem foldlM_checked (value : τ → Nat) {size : α → Nat} {bound : Nat} {add : τ → α → Option τ}
    (adds : ∀ total x, value total + size x ≤ bound →
      ∃ next, add total x = some next ∧ value next = value total + size x) {start : τ}
    (fits : value start + (items.map size).sum ≤ bound) :
    ∃ total, items.foldlM add start = some total ∧
      value total = value start + (items.map size).sum := by
  induction items generalizing start with
  | nil => exact ⟨start, rfl, rfl⟩
  | cons x rest ih =>
    rw [map_cons, sum_cons] at fits
    rcases adds start x (by omega) with ⟨next, added, next_value⟩
    have rest_fits : value next + (rest.map size).sum ≤ bound := by omega
    rcases ih rest_fits with ⟨total, folded, total_value⟩
    refine ⟨total, ?_, ?_⟩
    · rw [foldlM_cons, added]
      exact folded
    · rw [total_value, next_value, map_cons, sum_cons]
      omega

end Library

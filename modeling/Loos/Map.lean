/-
`lolibc/struct/map.c`: the map of at most 16 items.

`map_add` puts every item behind the others. It looks neither for the key, which `map_find`
then finds with its oldest value, nor at the end of the array, which the 17th item passes.
So the map is one only in the runs that add at most 16 items and no key twice with
different values ([`map_right_iff`]).
-/
import Loos.Lib.Runs
import Mathlib.Data.List.Basic

set_option autoImplicit false

namespace Loos.Map

open SysLib

/-! ## The code -/

/-- `uintptr_t` -/
abbrev uintptr_t : Type := BitVec 64

structure map_item where
  key : uintptr_t
  value : uintptr_t
deriving DecidableEq

/-- `struct map`; the items from the index 16 on are the memory behind the array. -/
structure map where
  len : UInt8
  item : ℕ → map_item

/-- The length of the array `item`. -/
def ITEMS : ℕ := 16

def map_add (m : map) (key value : uintptr_t) : map :=
  { len := m.len + 1, item := Function.update m.item m.len.toNat ⟨key, value⟩ }

/-- The loop of `map_find`, with the turns to come. -/
def find_from (m : map) (key : uintptr_t) : ℕ → ℕ → uintptr_t
  | 0, _ => -1
  | n + 1, i => if (m.item i).key = key then (m.item i).value else find_from m key n (i + 1)

def map_find (m : map) (key : uintptr_t) : uintptr_t := find_from m key m.len.toNat 0

/-- `map_pop`: the index of the item that the returned pointer points to, `none` for the
pointer -1, and the map. -/
def map_pop (m : map) : Option ℕ × map :=
  if m.len ≠ 0 then (some (m.len - 1).toNat, { m with len := m.len - 1 }) else (none, m)

/-! ## Runs -/

/-- The map; the items that were added and not popped, the newest first; and the indices of
the items that were written. -/
structure Sys where
  map : map
  present : List map_item
  written : List ℕ

inductive Call where
  | add (key value : uintptr_t)
  | pop

/-- A call always comes back. -/
def step (s : Sys) : Call → Option Sys
  | .add key value => some
      { map := map_add s.map key value
        present := ⟨key, value⟩ :: s.present
        written := s.map.len.toNat :: s.written }
  | .pop => some { s with map := (map_pop s.map).2, present := s.present.tail }

/-- An empty map, whatever is in its items. -/
def empty (item : ℕ → map_item) : Sys := ⟨⟨0, item⟩, [], []⟩

/-- What `map_find` should return: the value most recently added for the key, or -1. -/
def newest (present : List map_item) (key : uintptr_t) : uintptr_t :=
  ((present.find? fun it => it.key = key).map map_item.value).getD (-1)

/-- What should hold in every state: the items are in the array, as many as `len` says,
`map_pop` returns the newest one, and `map_find` finds the newest of a key. -/
structure Right (s : Sys) : Prop where
  len : s.map.len.toNat = s.present.length ∧ s.map.len.toNat ≤ ITEMS
  inside : ∀ i ∈ s.written, i < ITEMS
  pop : (map_pop s.map).1.map (map_pop s.map).2.item = s.present.head?
  find : ∀ key, map_find s.map key = newest s.present key
  absent : ∀ key, map_find s.map key = -1 ↔ ∀ it ∈ s.present, it.key ≠ key

/-- There is room for the item, its value is not -1, and it is the value that the key has in
all items that are there. -/
def Ok (s : Sys) : Call → Prop
  | .add key value =>
    s.present.length < ITEMS ∧ value ≠ -1 ∧ ∀ it ∈ s.present, it.key = key → it.value = value
  | .pop => True

instance (s : Sys) : ∀ c, Decidable (Ok s c)
  | .add _ _ => inferInstanceAs (Decidable (_ ∧ _ ∧ ∀ it ∈ s.present, _))
  | .pop => .isTrue trivial

variable {s s' : Sys} {key value : uintptr_t} {item : ℕ → map_item} {present : List map_item}

/-! ## The items in the array -/

/-- The items are in the array in the order in which they were added. -/
structure Stored (s : Sys) : Prop where
  len : s.map.len.toNat = s.present.length
  room : s.present.length ≤ ITEMS
  inside : ∀ i ∈ s.written, i < ITEMS
  items : ∀ i < s.present.length, s.present.reverse[i]? = some (s.map.item i)

theorem Stored.empty : Stored (empty item) where
  len := rfl
  room := Nat.zero_le _
  inside := by simp [Map.empty]
  items := by simp [Map.empty]

/-- An item behind the others, where there is room. -/
theorem Stored.add (h : Stored s) (hroom : s.present.length < ITEMS)
    (hs : step s (.add key value) = some s') : Stored s' := by
  obtain rfl := Option.some.inj hs
  have hlen := h.len
  unfold ITEMS at hroom
  refine ⟨?_, Nat.succ_le_of_lt hroom, fun i hi => ?_, fun i hi => ?_⟩
  · simp only [map_add, List.length_cons]
    rw [UInt8.toNat_add, hlen, show (1 : UInt8).toNat = 1 from rfl, Nat.mod_eq_of_lt (by omega)]
  · rcases List.mem_cons.mp hi with rfl | hi
    · rw [hlen]
      exact hroom
    · exact h.inside i hi
  · simp only [map_add, List.reverse_cons, hlen]
    rw [List.length_cons] at hi
    rcases Nat.lt_succ_iff_lt_or_eq.mp hi with hlt | rfl
    · rw [List.getElem?_append_left (by rwa [List.length_reverse]), h.items i hlt,
        Function.update_of_ne (by omega)]
    · rw [List.getElem?_append_right (Nat.le_of_eq List.length_reverse),
        List.length_reverse, Nat.sub_self, Function.update_self]
      rfl

theorem Stored.len_eq_zero (h : Stored s) : s.map.len = 0 ↔ s.present = [] := by
  rw [← UInt8.toNat_inj, h.len, ← List.length_eq_zero_iff]
  rfl

theorem Stored.len_pred (h : Stored s) (h0 : s.map.len ≠ 0) :
    (s.map.len - 1).toNat = s.present.length - 1 := by
  have hpos : 1 ≤ s.map.len.toNat := by
    have : s.map.len.toNat ≠ 0 := fun he => h0 (UInt8.toNat_inj.mp he)
    omega
  have hle : (1 : UInt8) ≤ s.map.len := UInt8.le_iff_toNat_le.mpr hpos
  rw [UInt8.toNat_sub_of_le _ _ hle, h.len]
  rfl

/-- `map_pop` returns the newest item. -/
theorem Stored.popped (h : Stored s) :
    (map_pop s.map).1.map (map_pop s.map).2.item = s.present.head? := by
  by_cases h0 : s.map.len = 0
  · rw [map_pop, if_neg (not_not.mpr h0), h.len_eq_zero.mp h0]
    rfl
  · have hne : s.present ≠ [] := fun he => h0 (h.len_eq_zero.mpr he)
    have hpos := List.length_pos_iff.mpr hne
    rw [map_pop, if_pos h0]
    dsimp only
    rw [Option.map_some, h.len_pred h0, ← h.items _ (by omega),
      List.getElem?_reverse (by omega), List.head?_eq_getElem?]
    exact congrArg (s.present[·]?) (by omega)

/-- And removes it. -/
theorem Stored.pop (h : Stored s) (hs : step s .pop = some s') : Stored s' := by
  obtain rfl := Option.some.inj hs
  by_cases h0 : s.map.len = 0
  · have hnil := h.len_eq_zero.mp h0
    rw [map_pop, if_neg (not_not.mpr h0), hnil, List.tail_nil, ← hnil]
    exact h
  · have hroom := h.room
    rw [map_pop, if_pos h0]
    refine ⟨?_, ?_, h.inside, fun i hi => ?_⟩
    · rw [List.length_tail]
      exact h.len_pred h0
    · rw [List.length_tail]
      omega
    · rw [List.length_tail] at hi
      dsimp only
      rw [← h.items i (by omega), List.getElem?_reverse (by rw [List.length_tail]; omega),
        List.getElem?_reverse (by omega), List.length_tail, List.getElem?_tail]
      exact congrArg (s.present[·]?) (by omega)

/-! ## Finding -/

theorem find_from_eq {m : map} {its : List map_item} {n i : ℕ}
    (h : ∀ j < its.length, its[j]? = some (m.item (i + j))) (hn : its.length = n) :
    find_from m key n i = newest its key := by
  induction its generalizing n i with
  | nil =>
    subst hn
    rfl
  | cons it its ih =>
    obtain rfl : its.length + 1 = n := hn
    have hhead : m.item i = it := (Option.some.inj (h 0 (Nat.succ_pos _))).symm
    rw [find_from, newest, List.find?_cons, hhead]
    by_cases hkey : it.key = key
    · rw [if_pos hkey, decide_eq_true hkey]
      rfl
    · rw [if_neg hkey, decide_eq_false hkey]
      refine ih (fun j hj => ?_) rfl
      have hnext := h (j + 1) (Nat.succ_lt_succ hj)
      rwa [List.getElem?_cons_succ, show i + (j + 1) = i + 1 + j by omega] at hnext

/-- `map_find` finds the oldest item of a key. -/
theorem Stored.find (h : Stored s) : map_find s.map key = newest s.present.reverse key := by
  refine find_from_eq (fun j hj => ?_) (by rw [List.length_reverse, h.len])
  rw [List.length_reverse] at hj
  rw [Nat.zero_add, h.items j hj]

/-- The items of a key all have one value, which is not -1. -/
def Alike (present : List map_item) : Prop :=
  (∀ a ∈ present, ∀ b ∈ present, a.key = b.key → a.value = b.value) ∧
    ∀ a ∈ present, a.value ≠ -1

theorem exists_found {it : map_item} (hit : it ∈ present) :
    ∃ found, present.find? (fun a => a.key = it.key) = some found := by
  refine Option.isSome_iff_exists.mp (List.find?_isSome.mpr ⟨it, hit, ?_⟩)
  exact decide_eq_true rfl

theorem newest_of_mem {it : map_item} (h : Alike present) (hit : it ∈ present) :
    newest present it.key = it.value := by
  obtain ⟨found, hfound⟩ := exists_found hit
  have hkey := of_decide_eq_true (p := found.key = it.key) (List.find?_some hfound :)
  rw [newest, hfound]
  exact h.1 found (List.mem_of_find?_eq_some hfound) it hit hkey

theorem newest_of_notMem (h : ∀ it ∈ present, it.key ≠ key) : newest present key = -1 := by
  rw [newest, List.find?_eq_none.mpr fun it hit => by simpa using h it hit]
  rfl

theorem Alike.reverse (h : Alike present) : Alike present.reverse := by
  simpa only [Alike, List.mem_reverse] using h

/-- The oldest item of a key is as good as the newest. -/
theorem Alike.newest_reverse (h : Alike present) :
    newest present.reverse key = newest present key := by
  by_cases hex : ∃ it ∈ present, it.key = key
  · obtain ⟨it, hit, rfl⟩ := hex
    rw [newest_of_mem h hit, newest_of_mem h.reverse (List.mem_reverse.mpr hit)]
  · push Not at hex
    rw [newest_of_notMem hex, newest_of_notMem fun it hit => hex it (List.mem_reverse.mp hit)]

theorem Alike.newest_eq_neg_one (h : Alike present) :
    newest present key = -1 ↔ ∀ it ∈ present, it.key ≠ key := by
  constructor
  · rintro hneg it hit rfl
    rw [newest_of_mem h hit] at hneg
    exact h.2 it hit hneg
  · exact newest_of_notMem

theorem Alike.tail (h : Alike present) : Alike present.tail :=
  ⟨fun a ha b hb => h.1 a (List.mem_of_mem_tail ha) b (List.mem_of_mem_tail hb),
    fun a ha => h.2 a (List.mem_of_mem_tail ha)⟩

theorem Alike.cons (h : Alike present) (hvalue : value ≠ -1)
    (hsame : ∀ it ∈ present, it.key = key → it.value = value) :
    Alike (⟨key, value⟩ :: present) := by
  constructor
  · intro a ha b hb hkey
    rcases List.mem_cons.mp ha with rfl | ha <;> rcases List.mem_cons.mp hb with rfl | hb
    · rfl
    · exact (hsame b hb hkey.symm).symm
    · exact hsame a ha hkey
    · exact h.1 a ha b hb hkey
  · intro a ha
    rcases List.mem_cons.mp ha with rfl | ha
    · exact hvalue
    · exact h.2 a ha

/-! ## Every run -/

/-- What holds in the runs that meet the condition. -/
structure Inv (s : Sys) : Prop where
  stored : Stored s
  alike : Alike s.present

theorem Inv.right (h : Inv s) : Right s where
  len := ⟨h.stored.len, Nat.le_trans (Nat.le_of_eq h.stored.len) h.stored.room⟩
  inside := h.stored.inside
  pop := h.stored.popped
  find key := by rw [h.stored.find, h.alike.newest_reverse]
  absent key := by rw [h.stored.find, h.alike.newest_reverse, h.alike.newest_eq_neg_one]

/-- **One call.** -/
theorem Inv.of_step (h : Inv s) {c : Call} (hok : Ok s c) (hs : step s c = some s') : Inv s' := by
  cases c with
  | add key value =>
    obtain ⟨hroom, hvalue, hsame⟩ := hok
    refine ⟨h.stored.add hroom hs, ?_⟩
    obtain rfl := Option.some.inj hs
    exact h.alike.cons hvalue hsame
  | pop =>
    refine ⟨h.stored.pop hs, ?_⟩
    obtain rfl := Option.some.inj hs
    exact h.alike.tail

/-- A call after which all is right has met the condition. -/
theorem Inv.ok_of_right (h : Inv s) {c : Call} (hs : step s c = some s') (hright : Right s') :
    Ok s c := by
  cases c with
  | pop => trivial
  | add key value =>
    obtain rfl := Option.some.inj hs
    have hroom : s.present.length < ITEMS := by
      rw [← h.stored.len]
      exact hright.inside _ List.mem_cons_self
    have hstored := h.stored.add hroom hs
    have hfind : map_find (map_add s.map key value) key = value := by
      refine (hright.find key).trans ?_
      simp [newest]
    refine ⟨hroom, fun hneg => ?_, fun it hit hkey => ?_⟩
    · exact (hright.absent key).mp (hfind.trans hneg) ⟨key, value⟩ List.mem_cons_self rfl
    · -- the older item is found first
      have hit' := List.mem_reverse.mpr hit
      obtain ⟨found, hfound⟩ := exists_found hit'
      have hvalue : found.value = it.value := by
        have hmem := newest_of_mem h.alike.reverse hit'
        rwa [newest, hfound] at hmem
      have hold : map_find (map_add s.map key value) key = found.value := by
        refine hstored.find.trans ?_
        rw [List.reverse_cons, newest, List.find?_append, ← hkey, hfound]
        rfl
      exact hvalue.symm.trans (hold.symm.trans hfind)

/-- **When the map is right**: in every state of a run of `map_add` and `map_pop` calls, exactly
if every `map_add` of the run finds fewer than 16 items, adds no -1, and adds to a key that is
there the value that it has. -/
theorem map_right_iff (item : ℕ → map_item) (calls : List Call) :
    (∀ before after s, calls = before ++ after → run step (empty item) before = some s → Right s) ↔
      Meets step Ok (empty item) calls := by
  have hempty : Inv (empty item) := ⟨.empty, by simp [Alike, empty]⟩
  rw [forall_reached_iff, and_iff_right hempty.right]
  refine meets_congr Inv (fun s c s' h hok hs => h.of_step hok hs) (fun s c h => ?_) hempty
  constructor
  · intro hright
    obtain ⟨s', hs⟩ : ∃ s', step s c = some s' := by cases c <;> exact ⟨_, rfl⟩
    exact h.ok_of_right hs (hright s' hs)
  · intro hok s' hs
    exact (h.of_step hok hs).right

example : Meets step Ok (empty fun _ => ⟨0, 0⟩) [.add 1 5, .add 2 6, .add 1 5, .pop, .pop] := by
  decide

/-- The older of two values is found, and the 17th item is behind the array. -/
theorem map_not_right : ∃ s s', run step (empty fun _ => ⟨0, 0⟩) [.add 1 5, .add 1 6] = some s ∧
    map_find s.map 1 = 5 ∧ ¬ Right s ∧
    run step (empty fun _ => ⟨0, 0⟩) (List.replicate 17 (.add 1 5)) = some s' ∧
    s'.map.len = 17 ∧ 16 ∈ s'.written ∧ ¬ Right s' := by
  refine ⟨_, _, rfl, rfl, fun h => ?_, rfl, rfl, List.mem_cons_self, fun h => ?_⟩
  · exact absurd (h.find 1) (by decide)
  · exact absurd h.len.2 (by decide)

end Loos.Map

import Mathlib.Data.List.Pairwise
import Mathlib.Data.List.Sort

/-! A map whose entries are kept in ascending key order, so that iterating over it visits the keys
from the lowest up. -/

namespace Ehdb.ProofKit

open List

structure OrderedMap (κ β : Type) [LinearOrder κ] where
  entries : List (κ × β)
  ordered : entries.Pairwise fun a b => a.1 < b.1

namespace OrderedMap

variable {κ β : Type} [LinearOrder κ]

def empty : OrderedMap κ β := ⟨[], .nil⟩

def insertEntry (k : κ) (v : β) : List (κ × β) → List (κ × β)
  | [] => [(k, v)]
  | (a, b) :: rest =>
    if k < a then (k, v) :: (a, b) :: rest
    else if k = a then (k, v) :: rest
    else (a, b) :: insertEntry k v rest

variable {l : List (κ × β)}

theorem key_insertEntry {k v e} (h : e ∈ insertEntry k v l) : e.1 = k ∨ e ∈ l := by
  induction l with
  | nil =>
    rw [mem_singleton.1 h]
    exact .inl rfl
  | cons head rest ih =>
    unfold insertEntry at h
    split at h
    · rcases mem_cons.1 h with rfl | old
      · exact .inl rfl
      · exact .inr old
    · split at h
      · rcases mem_cons.1 h with rfl | old
        · exact .inl rfl
        · exact .inr (.tail _ old)
      · rcases mem_cons.1 h with rfl | old
        · exact .inr (mem_cons_self ..)
        · exact (ih old).imp id (mem_cons_of_mem _)

theorem insertEntry_ordered {k v}
    (h : l.Pairwise fun a b => a.1 < b.1) : (insertEntry k v l).Pairwise fun a b => a.1 < b.1 := by
  induction l with
  | nil => exact pairwise_singleton _ _
  | cons head rest ih =>
    obtain ⟨below, rest_ordered⟩ := pairwise_cons.1 h
    unfold insertEntry
    split
    · rename_i lower
      refine pairwise_cons.2 ⟨?_, h⟩
      intro e mem
      rcases mem_cons.1 mem with rfl | mem
      · exact lower
      · exact lower.trans (below e mem)
    · rename_i not_lower
      split
      · rename_i same
        exact pairwise_cons.2 ⟨same ▸ below, rest_ordered⟩
      · rename_i other
        refine pairwise_cons.2 ⟨?_, ih rest_ordered⟩
        intro e mem
        rcases key_insertEntry mem with key | old
        · exact key ▸ lt_of_le_of_ne (not_lt.1 not_lower) (Ne.symm other)
        · exact below e old

def insert (m : OrderedMap κ β) (k : κ) (v : β) : OrderedMap κ β :=
  ⟨insertEntry k v m.entries, insertEntry_ordered m.ordered⟩

def erase (m : OrderedMap κ β) (k : κ) : OrderedMap κ β :=
  ⟨m.entries.filter fun e => e.1 ≠ k, m.ordered.filter _⟩

def adjust (m : OrderedMap κ β) (k : κ) (f : β → β) : OrderedMap κ β :=
  ⟨m.entries.map fun e => if e.1 = k then (e.1, f e.2) else e, by
    refine pairwise_map.2 (m.ordered.imp ?_)
    intro a b below
    split <;> split <;> exact below⟩

def mapValues (m : OrderedMap κ β) (f : β → β) : OrderedMap κ β :=
  ⟨m.entries.map fun e => (e.1, f e.2), pairwise_map.2 (m.ordered.imp fun h => h)⟩

def find? (m : OrderedMap κ β) (k : κ) : Option β :=
  (m.entries.find? fun e => e.1 = k).map Prod.snd

variable {m : OrderedMap κ β} {k k' : κ} {v v' : β}

theorem unique (h : (k, v) ∈ m.entries) (h' : (k, v') ∈ m.entries) : v = v' := by
  have distinct : m.entries.Pairwise fun a b => a.1 ≠ b.1 := m.ordered.imp fun h => h.ne
  have : Std.Symm fun a b : κ × β => a.1 ≠ b.1 := ⟨fun _ _ h => h.symm⟩
  by_contra differ
  exact distinct.forall h h' (by simpa using differ) rfl

theorem find?_eq_some : m.find? k = some v ↔ (k, v) ∈ m.entries := by
  constructor
  · intro h
    rw [find?, Option.map_eq_some_iff] at h
    obtain ⟨⟨a, b⟩, found, rfl⟩ := h
    have key : a = k := by simpa using find?_some found
    exact key ▸ mem_of_find?_eq_some found
  · intro h
    cases found : m.entries.find? fun e => e.1 = k with
    | none => simpa using find?_eq_none.1 found (k, v) h
    | some e =>
      have key : e.1 = k := by simpa using find?_some found
      have mem : (k, e.2) ∈ m.entries := by
        rw [← key]
        exact mem_of_find?_eq_some found
      simp [find?, found, unique mem h]

theorem erase_of_absent (h : m.find? k = none) : m.erase k = m := by
  have absent : ∀ e ∈ m.entries, e.1 ≠ k := by
    intro e mem same
    have : m.find? k = some e.2 := find?_eq_some.2 (same ▸ mem)
    rw [h] at this
    cases this
  obtain ⟨entries, ordered⟩ := m
  simpa [erase] using absent

theorem mem_erase : (k', v') ∈ (m.erase k).entries ↔ k' ≠ k ∧ (k', v') ∈ m.entries := by
  simp [erase, mem_filter, and_comm]

variable {f : β → β}

theorem mem_adjust : (k', v') ∈ (m.adjust k f).entries ↔
      (k' ≠ k ∧ (k', v') ∈ m.entries) ∨ (k' = k ∧ ∃ v, (k, v) ∈ m.entries ∧ v' = f v) := by
  simp only [adjust, mem_map]
  constructor
  · rintro ⟨⟨a, b⟩, mem, eq⟩
    split at eq
    · rename_i same
      cases eq
      exact .inr ⟨same, b, same ▸ mem, rfl⟩
    · rename_i other
      cases eq
      exact .inl ⟨other, mem⟩
  · rintro (⟨other, mem⟩ | ⟨rfl, v, mem, rfl⟩)
    · exact ⟨_, mem, if_neg other⟩
    · exact ⟨_, mem, if_pos rfl⟩

theorem of_mem_adjust (h : (k', v') ∈ (m.adjust k f).entries) : ∃ v, (k', v) ∈ m.entries := by
  rcases mem_adjust.1 h with ⟨-, old⟩ | ⟨rfl, v, old, -⟩
  · exact ⟨v', old⟩
  · exact ⟨v, old⟩

theorem mem_insertEntry (h : l.Pairwise fun a b => a.1 < b.1) :
    (k', v') ∈ insertEntry k v l ↔ (k' = k ∧ v' = v) ∨ (k' ≠ k ∧ (k', v') ∈ l) := by
  induction l with
  | nil => simp [insertEntry]
  | cons head rest ih =>
    obtain ⟨a, b⟩ := head
    obtain ⟨below, rest_ordered⟩ := pairwise_cons.1 h
    have above : ∀ (c : β), (a, c) ∉ rest := fun c mem => (below _ mem).ne rfl
    unfold insertEntry
    split
    · rename_i lower
      have fresh : ∀ e ∈ (a, b) :: rest, e.1 ≠ k := by
        intro e mem
        rcases mem_cons.1 mem with rfl | mem
        · exact lower.ne'
        · exact (lower.trans (below e mem)).ne'
      rw [mem_cons, Prod.mk.injEq]
      exact or_congr_right ⟨fun mem => ⟨fresh _ mem, mem⟩, And.right⟩
    · split
      · rename_i same
        subst same
        rw [mem_cons, mem_cons, Prod.mk.injEq, Prod.mk.injEq]
        refine or_congr_right ⟨fun mem => ⟨?_, .inr mem⟩, ?_⟩
        · exact (below _ mem).ne'
        · rintro ⟨other, ⟨same, -⟩ | mem⟩
          · exact absurd same other
          · exact mem
      · rename_i other
        rw [mem_cons, mem_cons, ih rest_ordered, Prod.mk.injEq]
        constructor
        · rintro (⟨rfl, rfl⟩ | new | ⟨differ, mem⟩)
          · exact .inr ⟨fun same => other same.symm, .inl ⟨rfl, rfl⟩⟩
          · exact .inl new
          · exact .inr ⟨differ, .inr mem⟩
        · rintro (new | ⟨differ, first | mem⟩)
          · exact .inr (.inl new)
          · exact .inl first
          · exact .inr (.inr ⟨differ, mem⟩)

theorem mem_insert : (k', v') ∈ (m.insert k v).entries ↔
      (k' = k ∧ v' = v) ∨ (k' ≠ k ∧ (k', v') ∈ m.entries) := mem_insertEntry m.ordered

theorem head_le {e rest} (h : m.entries = e :: rest) (mem : (k, v) ∈ m.entries) : e.1 ≤ k := by
  have ordered := m.ordered
  rw [h] at mem ordered
  rcases mem_cons.1 mem with rfl | mem
  · exact le_rfl
  · exact ((pairwise_cons.1 ordered).1 _ mem).le

theorem entries_insert_last (h : ∀ e ∈ m.entries, e.1 < k) :
    (m.insert k v).entries = m.entries ++ [(k, v)] := by
  have last (l : List (κ × β)) (below : ∀ e ∈ l, e.1 < k) : insertEntry k v l = l ++ [(k, v)] := by
    induction l with
    | nil => rfl
    | cons head rest ih =>
      have first := below head mem_cons_self
      rw [insertEntry, if_neg (not_lt.2 first.le), if_neg first.ne',
        ih fun e mem => below e (.tail _ mem)]
      rfl
  exact last m.entries h

variable {X Y : List (κ × β)}

section

variable (h : m.entries = X ++ (k, v) :: Y)

include h

theorem around : (∀ e ∈ X, e.1 < k) ∧ ∀ e ∈ Y, k < e.1 := by
  have ordered := m.ordered
  rw [h, pairwise_append] at ordered
  obtain ⟨-, rest, before⟩ := ordered
  exact ⟨fun e mem => before e mem (k, v) mem_cons_self,
    fun e mem => (pairwise_cons.1 rest).1 e mem⟩

theorem entries_insert_split : (m.insert k v').entries = X ++ (k, v') :: Y := by
  obtain ⟨below, -⟩ := around h
  have inserted : insertEntry k v' (X ++ (k, v) :: Y) = X ++ (k, v') :: Y := by
    clear h
    induction X with
    | nil => rw [nil_append, insertEntry, if_neg (lt_irrefl k), if_pos rfl, nil_append]
    | cons head rest ih =>
      have first := below head mem_cons_self
      rw [cons_append, insertEntry, if_neg (not_lt.2 first.le), if_neg first.ne',
        ih fun e mem => below e (.tail _ mem), cons_append]
  show insertEntry k v' m.entries = _
  rw [h, inserted]

theorem entries_erase_split : (m.erase k).entries = X ++ Y := by
  obtain ⟨below, above⟩ := around h
  have before : X.filter (fun e => e.1 ≠ k) = X :=
    filter_eq_self.2 fun e mem => by simpa using (below e mem).ne
  have after : Y.filter (fun e => e.1 ≠ k) = Y :=
    filter_eq_self.2 fun e mem => by simpa using (above e mem).ne'
  show m.entries.filter (fun e => e.1 ≠ k) = _
  rw [h, filter_append, filter_cons_of_neg (by simp), before, after]

end

@[simp] theorem find?_empty (k : κ) : (empty : OrderedMap κ β).find? k = none := rfl

theorem find?_adjust (m : OrderedMap κ β) (k k' : κ) (f : β → β) :
    (m.adjust k f).find? k' = if k' = k then (m.find? k').map f else m.find? k' := by
  refine Option.ext fun v => ?_
  rw [find?_eq_some, mem_adjust]
  split
  · rename_i same
    subst same
    rw [Option.map_eq_some_iff]
    constructor
    · rintro (⟨differ, -⟩ | ⟨-, v', mem, rfl⟩)
      · exact absurd rfl differ
      · exact ⟨v', find?_eq_some.2 mem, rfl⟩
    · rintro ⟨v', found, rfl⟩
      exact .inr ⟨rfl, v', find?_eq_some.1 found, rfl⟩
  · rename_i other
    simp [other, find?_eq_some]

theorem find?_insert (m : OrderedMap κ β) (k k' : κ) (v : β) :
    (m.insert k v).find? k' = if k' = k then some v else m.find? k' := by
  refine Option.ext fun v' => ?_
  rw [find?_eq_some, mem_insert]
  split
  · rename_i same
    simp [same, eq_comm]
  · rename_i other
    simp [other, find?_eq_some]

theorem find?_erase_of_ne (other : k' ≠ k) : (m.erase k).find? k' = m.find? k' := by
  cases found : m.find? k' with
  | some v =>
    exact find?_eq_some.2 (mem_erase.2 ⟨other, find?_eq_some.1 found⟩)
  | none =>
    by_contra there
    obtain ⟨v, there⟩ := Option.ne_none_iff_exists'.1 there
    have mem := (mem_erase.1 (find?_eq_some.1 there)).2
    rw [find?_eq_some.2 mem] at found
    cases found

theorem find?_mapValues (m : OrderedMap κ β) (k : κ) (f : β → β) :
    (m.mapValues f).find? k = (m.find? k).map f := by
  simp [find?, mapValues, find?_map, Function.comp_def]

theorem length_erase_lt (h : (k, v) ∈ m.entries) : (m.erase k).entries.length < m.entries.length :=
  length_filter_lt_length_iff_exists.2 ⟨(k, v), h, by simp⟩

theorem length_adjust (m : OrderedMap κ β) (k : κ) (f : β → β) :
    (m.adjust k f).entries.length = m.entries.length := by
  simp [adjust]

theorem mem_adjust_self (h : (k, v) ∈ m.entries) : (k, f v) ∈ (m.adjust k f).entries :=
  mem_adjust.2 (.inr ⟨rfl, v, h, rfl⟩)

theorem mem_insert_self (m : OrderedMap κ β) (k : κ) (v : β) : (k, v) ∈ (m.insert k v).entries :=
  mem_insert.2 (.inl ⟨rfl, rfl⟩)

theorem length_erase_adjust_lt (h : (k, v) ∈ m.entries) :
    ((m.adjust k f).erase k).entries.length < m.entries.length :=
  length_adjust m k f ▸ length_erase_lt (mem_adjust_self h)

theorem length_insertEntry_le (k : κ) (v : β) (l : List (κ × β)) :
    (insertEntry k v l).length ≤ l.length + 1 := by
  induction l with
  | nil => exact Nat.le_refl _
  | cons head rest ih =>
    unfold insertEntry
    split
    · exact Nat.le_refl _
    · split
      · exact Nat.le_succ _
      · exact Nat.succ_le_succ ih

theorem length_erase_insert_le (m : OrderedMap κ β) (k : κ) (v : β) :
    ((m.insert k v).erase k).entries.length ≤ m.entries.length :=
  Nat.le_of_lt_succ (Nat.lt_of_lt_of_le (length_erase_lt (mem_insert_self m k v))
    (length_insertEntry_le k v m.entries))

variable {m m' : OrderedMap κ β}

theorem ext_find? (h : ∀ k, m.find? k = m'.find? k) : m = m' := by
  have antisymm : Std.Antisymm fun a b : κ × β => a.1 < b.1 :=
    ⟨fun _ _ below above => (lt_asymm below above).elim⟩
  have irrefl : Std.Irrefl fun a b : κ × β => a.1 < b.1 := ⟨fun a => lt_irrefl a.1⟩
  have same : m.entries = m'.entries := by
    refine m.ordered.eq_of_mem_iff m'.ordered fun e => ?_
    rw [← find?_eq_some, ← find?_eq_some, h]
  cases m
  cases m'
  cases same
  rfl

theorem insert_of_find? (h : m.find? k = some v) : m.insert k v = m := by
  refine ext_find? fun other => ?_
  rw [find?_insert]
  split
  · rename_i same
    rw [same, h]
  · rfl

theorem filter_entries_congr {p : κ → Bool} (same : ∀ k, p k = true → m.find? k = m'.find? k) :
    m.entries.filter (fun e => p e.1) = m'.entries.filter fun e => p e.1 := by
  have irrefl : Std.Irrefl fun a b : κ × β => a.1 < b.1 := ⟨fun _ => lt_irrefl _⟩
  have antisymm : Std.Antisymm fun a b : κ × β => a.1 < b.1 :=
    ⟨fun _ _ hab hba => absurd hab (lt_asymm hba)⟩
  refine List.Pairwise.eq_of_mem_iff (m.ordered.filter _) (m'.ordered.filter _) ?_
  rintro ⟨k, v⟩
  rw [mem_filter, mem_filter, ← find?_eq_some, ← find?_eq_some]
  refine and_congr_left ?_
  intro at_key
  rw [same k at_key]

/-- What is selected from two maps is the same, if nothing is selected outside the keys on which
they agree. -/
theorem filterMap_values_congr {γ : Type} {f f' : β → Option γ}
    (p : κ → Bool) (same : ∀ k, p k = true → m.find? k = m'.find? k)
    (outside : ∀ e ∈ m.entries, p e.1 = false → f e.2 = none)
    (outside' : ∀ e ∈ m'.entries, p e.1 = false → f' e.2 = none)
    (inside : ∀ e ∈ m.entries, p e.1 = true → f e.2 = f' e.2) :
    (m.entries.map Prod.snd).filterMap f = (m'.entries.map Prod.snd).filterMap f' := by
  have keep : ∀ {l : List (κ × β)} {g : β → Option γ}, (∀ e ∈ l, p e.1 = false → g e.2 = none) →
      (l.map Prod.snd).filterMap g = (l.filter fun e => p e.1).filterMap fun e => g e.2 := by
    intro l g none_outside
    rw [filterMap_map, filterMap_filter]
    refine filterMap_congr ?_
    intro e mem
    cases at_key : p e.1 with
    | true => rfl
    | false => exact none_outside e mem at_key
  rw [keep outside, keep outside', ← filter_entries_congr same]
  refine filterMap_congr ?_
  intro e mem
  obtain ⟨mem, at_key⟩ := mem_filter.1 mem
  exact inside e mem at_key

end OrderedMap

end Ehdb.ProofKit

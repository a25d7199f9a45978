import Mathlib.Data.List.Nodup

namespace Sql

open List

-- A row with its deletion mark. Marked rows are invisible to queries.
structure Record (ρ : Type) where
  row : ρ
  deleted : Bool

abbrev Table (ρ : Type) :=
  List (Record ρ)

namespace Table

variable {ρ κ : Type} {key : ρ → Option κ} {p : ρ → Bool} {t t' : Table ρ} {r : ρ}

def rows (t : Table ρ) : List ρ :=
  t.filter (!·.deleted) |>.map Record.row

-- The values of a unique index, which covers the rows marked as deleted, but none without a key.
def keys (key : ρ → Option κ) (t : Table ρ) : List κ :=
  t.filterMap (key ·.row)

theorem rows_append (t : Table ρ) (l : List ρ) : rows (t ++ l.map (⟨·, false⟩)) = t.rows ++ l := by
  simp [rows, filter_map, Function.comp_def]

theorem rows_concat (t : Table ρ) (r : ρ) : rows (t ++ [⟨r, false⟩]) = t.rows ++ [r] :=
  rows_append t [r]

theorem mem_keys_of_mem_rows {k : κ} (h : r ∈ t.rows) (hk : k ∈ key r) : k ∈ t.keys key := by
  simp only [rows, mem_map, mem_filter] at h
  have ⟨x, ⟨hx, _⟩, he⟩ := h
  exact mem_filterMap.mpr ⟨x, hx, he ▸ hk⟩

def delete (p : ρ → Bool) (t : Table ρ) : Table ρ :=
  t.filter fun r => !p r.row

def softDelete (p : ρ → Bool) (t : Table ρ) : Table ρ :=
  t.map fun r => { r with deleted := r.deleted || p r.row }

theorem rows_delete : (t.delete p).rows = t.rows.filter (!p ·) := by
  simp [rows, delete, filter_map, filter_filter, Function.comp_def, Bool.and_comm]

theorem keys_softDelete : (t.softDelete p).keys key = t.keys key := by
  simp [keys, softDelete, filterMap_map]

theorem rows_softDelete : (t.softDelete p).rows = t.rows.filter (!p ·) := by
  simp [rows, softDelete, filter_map, Function.comp_def, Bool.and_comm]

theorem softDelete_softDelete {q : ρ → Bool} :
    (t.softDelete p).softDelete q = t.softDelete fun r => p r || q r := by
  simp [softDelete, Function.comp_def, Bool.or_assoc]

theorem keys_append (t t' : Table ρ) : (t ++ t').keys key = t.keys key ++ t'.keys key :=
  List.filterMap_append

-- Keys that differ from each other and from those that are taken.
structure Fresh (taken l : List κ) : Prop where
  nodup : l.Nodup
  free : ∀ k ∈ l, k ∉ taken

theorem fresh_append {taken l l' : List κ} :
    Fresh taken (l ++ l') ↔ Fresh taken l ∧ Fresh (taken ++ l) l' := by
  constructor
  case mp =>
    rintro ⟨hn, hf⟩
    obtain ⟨hn, hn', hd⟩ := nodup_append'.mp hn
    obtain ⟨hf, hf'⟩ := forall_mem_append.mp hf
    refine ⟨⟨hn, hf⟩, hn', fun k hk => ?_⟩
    rw [mem_append, not_or]
    exact ⟨hf' k hk, fun h => hd h hk⟩
  case mpr =>
    rintro ⟨⟨hn, hf⟩, hn', hf'⟩
    simp only [mem_append, not_or] at hf'
    refine ⟨nodup_append'.mpr ⟨hn, hn', fun k hk hk' => (hf' k hk').right hk⟩, ?_⟩
    exact forall_mem_append.mpr ⟨hf, fun k hk => (hf' k hk).left⟩

variable [DecidableEq κ]

instance {taken l : List κ} : Decidable (Fresh taken l) :=
  decidable_of_iff (l.Nodup ∧ ∀ k ∈ l, k ∉ taken)
    ⟨fun h => ⟨h.left, h.right⟩, fun h => ⟨h.nodup, h.free⟩⟩

def create (key : ρ → Option κ) (t : Table ρ) (r : ρ) : Option (Table ρ) :=
  if ∃ k ∈ key r, k ∈ t.keys key then none else some (t ++ [⟨r, false⟩])

def createAll (key : ρ → Option κ) (t : Table ρ) (l : List ρ) : Option (Table ρ) :=
  l.foldlM (create key) t

theorem create_eq_some (h : t.create key r = some t') :
    t' = t ++ [⟨r, false⟩] ∧ ∀ k ∈ key r, k ∉ t.keys key := by
  unfold create at h
  split at h
  case isTrue     => contradiction
  case isFalse hk => exact ⟨(Option.some.inj h).symm, fun k hr ht => hk ⟨k, hr, ht⟩⟩

theorem createAll_eq_some {l : List ρ} (h : t.createAll key l = some t') :
    t' = t ++ l.map (⟨·, false⟩) := by
  induction l generalizing t
  case nil =>
    cases h
    simp
  case cons r l hi =>
    have ⟨t₁, hc, hl⟩ := Option.bind_eq_some_iff.mp h
    rw [hi hl, (create_eq_some hc).left]
    simp

theorem create_isSome_iff : (t.create key r).isSome ↔ Fresh (t.keys key) (key r).toList := by
  unfold create
  cases hk : key r
  case none   => exact iff_of_true (by simp) ⟨nodup_nil, by simp⟩
  case some k =>
    split
    case isTrue h  =>
      refine iff_of_false (by simp) fun hf => hf.free k (mem_singleton_self k) ?_
      simpa using h
    case isFalse h => exact iff_of_true rfl ⟨nodup_singleton k, by simpa using h⟩

theorem createAll_isSome_iff {l : List ρ} :
    (t.createAll key l).isSome ↔ Fresh (t.keys key) (l.filterMap key) := by
  induction l generalizing t
  case nil => exact iff_of_true rfl ⟨nodup_nil, by simp⟩
  case cons r l hi =>
    have hl : (r :: l).filterMap key = (key r).toList ++ l.filterMap key := by
      cases hk : key r <;> simp [hk]
    rw [hl, fresh_append, ← create_isSome_iff, createAll, foldlM_cons]
    cases hc : t.create key r
    case none    => exact iff_of_false (by simp) (by simp)
    case some t' =>
      have hk : t'.keys key = t.keys key ++ (key r).toList := by
        rw [(create_eq_some hc).left, keys_append]
        cases hk : key r <;> simp [keys, hk]
      rw [← hk, and_iff_right Option.isSome_some]
      exact hi

end Table
end Sql

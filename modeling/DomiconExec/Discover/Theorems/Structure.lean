import DomiconExec.Discover.Table
import Mathlib.Data.List.OfFn

open List

namespace Netutil.DistinctNetSet

variable {s s' : DistinctNetSet} {ip : IP} {k : Bytes}

theorem add_ok : (s.add ip).fst ↔ s.count (s.key ip) < s.limit := by
  unfold add
  split
  case isTrue h  => simp [h]
  case isFalse h => simp [h]

theorem add_count (h : (s.add ip).fst) :
    (s.add ip).snd.count k = s.count k + if k = s.key ip then 1 else 0 := by
  rw [add, if_pos (add_ok.mp h), count, GoMap.get_set]
  split
  case isTrue he => rw [he, Option.getD_some]
  case isFalse   => rfl

theorem add_of_not (h : ¬(s.add ip).fst) : (s.add ip).snd = s := by
  rw [add, if_neg (mt add_ok.mpr h)]

theorem remove_count :
    (s.remove ip).count k = s.count k - if k = s.key ip then 1 else 0 := by
  unfold remove count
  split
  case h_1 hn =>
    split
    case isTrue he => rw [he, hn, Option.getD_none]
    case isFalse   => rfl
  case h_2 n hs =>
    split
    case isTrue h₁ =>
      rw [GoMap.get_del]
      split
      case isTrue he => rw [he, hs, h₁, Option.getD_none, Option.getD_some]
      case isFalse   => rfl
    case isFalse h₁ =>
      rw [GoMap.get_set]
      split
      case isTrue he => rw [he, hs, Option.getD_some, Option.getD_some]
      case isFalse   => rfl

-- The two sets count the same subnets, and none of them has a smaller number in `s'`.
structure Le (s s' : DistinctNetSet) : Prop where
  subnet : s'.subnet = s.subnet
  limit : s'.limit = s.limit
  count : ∀ k, s.count k ≤ s'.count k

theorem Le.refl (s : DistinctNetSet) : s.Le s :=
  ⟨rfl, rfl, fun _ => Nat.le_refl _⟩

theorem Le.key (h : s.Le s') : s'.key = s.key := by
  unfold DistinctNetSet.key
  rw [h.subnet]

theorem Le.add_ok (h : s.Le s') (ha : (s'.add ip).fst) : (s.add ip).fst := by
  rw [DistinctNetSet.add_ok] at ha ⊢
  rw [h.key, h.limit] at ha
  exact Nat.lt_of_le_of_lt (h.count _) ha

theorem add_le : s.Le (s.add ip).snd := by
  by_cases h : (s.add ip).fst
  case pos =>
    refine ⟨?_, ?_, fun k => add_count h ▸ Nat.le_add_right ..⟩
    all_goals rw [add, if_pos (DistinctNetSet.add_ok.mp h)]
  case neg =>
    rw [add_of_not h]
    exact .refl s

theorem remove_subnet : (s.remove ip).subnet = s.subnet := by
  unfold remove
  split
  case h_1 => rfl
  case h_2 => split <;> rfl

theorem remove_limit : (s.remove ip).limit = s.limit := by
  unfold remove
  split
  case h_1 => rfl
  case h_2 => split <;> rfl

theorem add_remove_count (h : (s.add ip).fst) : ((s.add ip).snd.remove ip).count k = s.count k := by
  rw [remove_count, add_count h, add_le.key, Nat.add_sub_cancel]

theorem add_remove_le (h : (s.add ip).fst) : s.Le ((s.add ip).snd.remove ip) where
  subnet := remove_subnet.trans add_le.subnet
  limit := remove_limit.trans add_le.limit
  count _ := Nat.le_of_eq (add_remove_count h).symm

end Netutil.DistinctNetSet

namespace Discover
open Netutil

variable {tab tab' : Table} {b b' : Fin nBuckets} {n : Node} {ip : IP} {id me : Hash}

structure Table.Same (tab tab' : Table) : Prop where
  self : tab'.self = tab.self
  entries : ∀ b, (tab'.buckets b).entries = (tab.buckets b).entries
  replacements : ∀ b, (tab'.buckets b).replacements = (tab.buckets b).replacements

namespace Table

theorem Same.refl (tab : Table) : tab.Same tab :=
  ⟨rfl, fun _ => rfl, fun _ => rfl⟩

theorem Same.trans {tab₁ tab₂ tab₃ : Table} (h : tab₁.Same tab₂) (h' : tab₂.Same tab₃) :
    tab₁.Same tab₃ where
  self := h'.self.trans h.self
  entries b := (h'.entries b).trans (h.entries b)
  replacements b := (h'.replacements b).trans (h.replacements b)

theorem setBucket_buckets {bucket : Bucket} :
    (tab.setBucket b bucket).buckets b' = if b' = b then bucket else tab.buckets b' :=
  Function.update_apply ..

@[simp]
theorem setBucket_same_bucket {bucket : Bucket} : (tab.setBucket b bucket).buckets b = bucket :=
  Function.update_self ..

theorem same_setIPs {ips : DistinctNetSet} {bucket : Bucket}
    (he : bucket.entries = (tab.buckets b).entries)
    (hr : bucket.replacements = (tab.buckets b).replacements) :
    tab.Same ({ tab with ips }.setBucket b bucket) where
  self := rfl
  entries b' := by
    rw [setBucket_buckets]
    split
    case isTrue h  => rw [he, h]
    case isFalse h => rfl
  replacements b' := by
    rw [setBucket_buckets]
    split
    case isTrue h  => rw [hr, h]
    case isFalse h => rfl

-- If the limit of the bucket is reached, the address is removed from the counters of the table
-- again.
theorem addIP_cases :
    ((tab.addIP b ip).fst = false ∧ ((tab.addIP b ip).snd = tab ∨
      ¬isLAN ip ∧ (tab.ips.add ip).fst ∧
        (tab.addIP b ip).snd = { tab with ips := (tab.ips.add ip).snd.remove ip })) ∨
    (isLAN ip ∧ tab.addIP b ip = (true, tab)) ∨
    (¬isLAN ip ∧ (tab.ips.add ip).fst ∧ ((tab.buckets b).ips.add ip).fst ∧
      tab.addIP b ip = (true, { tab with ips := (tab.ips.add ip).snd }.setBucket b
        { tab.buckets b with ips := ((tab.buckets b).ips.add ip).snd })) := by
  unfold addIP
  split
  case isTrue => exact .inl ⟨rfl, .inl rfl⟩
  case isFalse =>
    split
    case isTrue hl => exact .inr <| .inl ⟨hl, rfl⟩
    case isFalse hl =>
      split
      case h_1 ips ha =>
        have hn : ¬(tab.ips.add ip).fst := by simp [ha]
        have he := DistinctNetSet.add_of_not hn
        rw [ha] at he
        subst he
        exact .inl ⟨rfl, .inl rfl⟩
      case h_2 ips ha =>
        have hok : (tab.ips.add ip).fst := by simp [ha]
        obtain rfl : (tab.ips.add ip).snd = ips := by rw [ha]
        split
        case h_1        => exact .inl ⟨rfl, .inr ⟨hl, hok, rfl⟩⟩
        case h_2 ips' hb => exact .inr <| .inr ⟨hl, hok, by simp [hb], by rw [hb]⟩

theorem addIP_same : tab.Same (tab.addIP b ip).snd := by
  obtain ⟨-, he | ⟨-, -, he⟩⟩ | ⟨-, he⟩ | ⟨-, -, -, he⟩ := @addIP_cases tab b ip
  case inl.inl => exact he.symm ▸ .refl tab
  case inl.inr => exact he ▸ ⟨rfl, fun _ => rfl, fun _ => rfl⟩
  case inr.inl => exact he ▸ .refl tab
  case inr.inr => exact he ▸ same_setIPs rfl rfl

theorem removeIP_same : tab.Same (tab.removeIP b ip) := by
  unfold removeIP
  split
  case isTrue  => exact .refl tab
  case isFalse => exact same_setIPs rfl rfl

theorem addIP_ok : (tab.addIP b ip).fst ↔ ip.length ≠ 0 ∧
    (isLAN ip ∨ (tab.ips.add ip).fst ∧ ((tab.buckets b).ips.add ip).fst) := by
  unfold addIP
  by_cases h₀ : ip.length = 0
  case pos => simp [h₀]
  case neg =>
    by_cases hl : isLAN ip
    case pos => simp [h₀, hl]
    case neg =>
      have hne : ip ≠ [] := mt length_eq_zero_iff.mpr h₀
      simp only [h₀, hl, if_false]
      cases ha : tab.ips.add ip with | mk ok ips =>
      cases hb : (tab.buckets b).ips.add ip with | mk ok' ips' =>
      cases ok <;> cases ok' <;> simp [hne]

structure LeIPs (tab tab' : Table) : Prop where
  table : tab.ips.Le tab'.ips
  bucket : ∀ b, (tab.buckets b).ips.Le (tab'.buckets b).ips

theorem addIP_leIPs : tab.LeIPs (tab.addIP b ip).snd := by
  obtain ⟨-, he | ⟨-, hok, he⟩⟩ | ⟨-, he⟩ | ⟨-, -, -, he⟩ := @addIP_cases tab b ip
  case inl.inl => exact he.symm ▸ ⟨.refl _, fun _ => .refl _⟩
  case inl.inr => exact he ▸ ⟨DistinctNetSet.add_remove_le hok, fun _ => .refl _⟩
  case inr.inl => exact he ▸ ⟨.refl _, fun _ => .refl _⟩
  case inr.inr =>
    rw [he]
    refine ⟨DistinctNetSet.add_le, fun b' => ?_⟩
    rw [setBucket_buckets]
    split
    case isTrue h  => exact h ▸ DistinctNetSet.add_le
    case isFalse h => exact .refl _

theorem LeIPs.addIP_ok (h : tab.LeIPs tab') (ha : (tab'.addIP b ip).fst) : (tab.addIP b ip).fst := by
  rw [Table.addIP_ok] at ha ⊢
  exact ⟨ha.left, ha.right.imp_right fun ha => ⟨h.table.add_ok ha.left, (h.bucket b).add_ok ha.right⟩⟩

end Table

section Sound

variable {P : Hash → Prop} {es es' rs : List Hash} {r : Hash}

-- The identifiers of the entries and replacements of a bucket.
structure Sound (P : Hash → Prop) (es rs : List Hash) : Prop where
  entries : es.length ≤ bucketSize
  replacements : rs.length ≤ maxReplacements
  nodup : (es ++ rs).Nodup
  forall_mem : ∀ id ∈ es ++ rs, P id

namespace Sound

theorem perm (h : Sound P es rs) (hp : es'.Perm es) : Sound P es' rs where
  entries := hp.length_eq ▸ h.entries
  replacements := h.replacements
  nodup := ((hp.append_right rs).nodup_iff).mpr h.nodup
  forall_mem id m := h.forall_mem id ((hp.append_right rs).subset m)

-- A node that becomes an entry is no replacement any more.
theorem add (h : Sound P es rs) (hl : es.length < bucketSize) (hi : id ∉ es) (hp : P id) :
    Sound P (es ++ [id]) (rs.erase id) := by
  obtain ⟨he, hr, hd⟩ := nodup_append.mp h.nodup
  have hm (x : Hash) (hx : x ∈ es ++ [id] ++ rs.erase id) : x = id ∨ x ∈ es ++ rs := by
    simp only [mem_append, mem_singleton] at hx ⊢
    obtain (hx | hx) | hx := hx
    case inl.inl => exact .inr <| .inl hx
    case inl.inr => exact .inl hx
    case inr     => exact .inr <| .inr (mem_of_mem_erase hx)
  refine ⟨by rw [length_append]; exact hl, erase_sublist.length_le.trans h.replacements, ?_, fun x hx => ?_⟩
  case refine_1 =>
    refine nodup_append.mpr ⟨nodup_append.mpr ⟨he, by simp, ?_⟩, hr.erase id, ?_⟩
    case refine_1 =>
      rintro x hx y hy rfl
      exact hi (mem_singleton.mp hy ▸ hx)
    case refine_2 =>
      rintro x hx y hy rfl
      obtain hx | hx := mem_append.mp hx
      case inl => exact hd x hx x (mem_of_mem_erase hy) rfl
      case inr => exact hr.not_mem_erase (mem_singleton.mp hx ▸ hy)
  case refine_2 =>
    obtain rfl | hx := hm x hx
    case inl => exact hp
    case inr => exact h.forall_mem x hx

theorem sublist {rs' : List Hash} (h : Sound P es rs) (he : es'.Sublist es) (hr : rs'.Sublist rs) :
    Sound P es' rs' where
  entries := he.length_le.trans h.entries
  replacements := hr.length_le.trans h.replacements
  nodup := h.nodup.sublist (he.append hr)
  forall_mem id m := h.forall_mem id ((he.append hr).subset m)

theorem push (h : Sound P es rs) (hl : rs.length < maxReplacements) (hi : id ∉ es ++ rs)
    (hp : P id) : Sound P es (id :: rs) where
  entries := h.entries
  replacements := hl
  nodup := perm_middle.nodup_iff.mpr <| nodup_cons.mpr ⟨hi, h.nodup⟩
  forall_mem x m := by
    obtain rfl | m := mem_cons.mp (perm_middle.subset m)
    case inl => exact hp
    case inr => exact h.forall_mem x m

-- A replacement takes the place of the last entry.
theorem replace (h : Sound P es rs) (he : es ≠ []) (hr : r ∈ rs) :
    Sound P (es.dropLast ++ [r]) (rs.erase r) := by
  have hl : es.dropLast.length < bucketSize := by
    have := length_pos_iff.mpr he
    have := h.entries
    rw [length_dropLast]
    omega
  have hd := (nodup_append.mp h.nodup).right.right
  refine (h.sublist (dropLast_sublist es) (List.Sublist.refl rs)).add hl (fun hm => ?_) ?_
  case refine_1 => exact hd r (mem_of_mem_dropLast hm) r hr rfl
  case refine_2 => exact h.forall_mem r (mem_append_right es hr)

end Sound
end Sound

section Operations

theorem contains_iff {ns : List Node} : contains ns id ↔ id ∈ ns.map (·.id) := by
  simp [contains]

theorem deleteNode_ids {ns : List Node} :
    (deleteNode ns n).map (·.id) = (ns.map (·.id)).erase n.id := by
  induction ns
  case nil => rfl
  case cons m ns hi =>
    unfold deleteNode at hi ⊢
    by_cases h : m.id = n.id
    case pos => simp [h]
    case neg => simp [h, hi]

theorem bump_ids {ns : List Node} (h : n.id ∈ ns.map (·.id)) :
    ((n :: ns.eraseP (·.id = n.id)).map (·.id)).Perm (ns.map (·.id)) := by
  have he := @deleteNode_ids n ns
  rw [deleteNode] at he
  rw [map_cons, he]
  exact (perm_cons_erase h).symm

namespace Table

-- The buckets in which an identifier may be found.
def Placed (tab : Table) (b : Fin nBuckets) (id : Hash) : Prop :=
  id ≠ tab.self ∧ tab.bucket id = b

-- The table belongs to the node `me`, and its buckets are sound.
structure Structured (me : Hash) (tab : Table) : Prop where
  self : tab.self = me
  sound : ∀ b, Sound (tab.Placed b) ((tab.buckets b).entries.map (·.id))
    ((tab.buckets b).replacements.map (·.id))

theorem Same.placed (h : tab.Same tab') : tab'.Placed = tab.Placed := by
  funext b id
  simp only [Placed, bucket, h.self]

theorem Structured.congr (hs : tab.Structured me) (h : tab.Same tab') : tab'.Structured me where
  self := h.self.trans hs.self
  sound b := by
    rw [h.entries, h.replacements, h.placed]
    exact hs.sound b

theorem Structured.setBucket {bucket : Bucket} (hs : tab.Structured me)
    (hb : Sound (tab.Placed b) (bucket.entries.map (·.id)) (bucket.replacements.map (·.id))) :
    (tab.setBucket b bucket).Structured me where
  self := hs.self
  sound b' := by
    rw [setBucket_buckets]
    split
    case isTrue h  => exact h ▸ hb
    case isFalse h => exact hs.sound b'

-- A node that is an entry already must have an address that does not fit.
theorem addReplacement_structured (hs : tab.Structured me) (hp : tab.Placed b n.id)
    (hn : n.id ∈ (tab.buckets b).entries.map (·.id) → ¬(tab.addIP b n.ip).fst) :
    (tab.addReplacement b n).Structured me := by
  unfold addReplacement
  split
  case isTrue => exact hs
  case isFalse hr =>
    have hsame := @addIP_same tab b n.ip
    cases ha : tab.addIP b n.ip with | mk ok tab' =>
    rw [ha] at hsame hn
    have hs' := hs.congr hsame
    have hr : n.id ∉ (tab'.buckets b).replacements.map (·.id) := by
      rw [hsame.replacements, ← contains_iff]
      exact hr
    rw [← hsame.entries] at hn
    cases ok
    case false => exact hs'
    case true =>
      have hm : n.id ∉ (tab'.buckets b).entries.map (·.id) ++ (tab'.buckets b).replacements.map (·.id) :=
        not_mem_append (fun h => hn h rfl) hr
      have hp' : tab'.Placed b n.id := hsame.placed ▸ hp
      by_cases hl : (tab'.buckets b).replacements.length < maxReplacements
      case pos =>
        simp only [pushNode, if_pos hl]
        exact hs'.setBucket ((hs'.sound b).push (by rwa [length_map]) hm hp')
      case neg =>
        simp only [pushNode, if_neg hl]
        have hsub := (hs'.sound b).sublist (List.Sublist.refl _)
          ((dropLast_sublist (tab'.buckets b).replacements).map (·.id))
        have hd : (tab'.setReplacements b (n :: (tab'.buckets b).replacements.dropLast)).Structured me := by
          refine hs'.setBucket (hsub.push ?_ (fun h => hm ?_) hp')
          case refine_1 =>
            have hle : ((tab'.buckets b).replacements.map (·.id)).length ≤ maxReplacements :=
              (hs'.sound b).replacements
            have hpos : 0 < maxReplacements := by decide
            rw [length_map] at hle ⊢
            rw [length_dropLast]
            omega
          case refine_2 =>
            have hd := (dropLast_sublist (tab'.buckets b).replacements).map fun n => n.id
            exact ((List.Sublist.refl _).append hd).subset h
        split
        case h_1 => exact hd.congr removeIP_same
        case h_2 => exact hd

-- A node keeps its place if its new address does not fit, with or without the previous one.
theorem bump_false (h : (tab.bumpInBucket b n).fst = false) :
    tab.Same (tab.bumpInBucket b n).snd ∧ (n.id ∈ (tab.buckets b).entries.map (·.id) →
      ¬((tab.bumpInBucket b n).snd.addIP b n.ip).fst) := by
  unfold bumpInBucket at h ⊢
  dsimp only at h ⊢
  split
  case h_1 hf =>
    refine ⟨.refl tab, fun hm => ?_⟩
    obtain ⟨e, he, hid⟩ := mem_map.mp hm
    exact absurd (decide_eq_true hid) (List.find?_eq_none.mp hf e he)
  case h_2 e hf =>
    simp only [hf] at h
    split
    case isTrue hip =>
      rw [if_pos hip] at h
      contradiction
    case isFalse hip =>
      rw [if_neg hip] at h
      have hsame := removeIP_same.trans (@addIP_same (tab.removeIP b e.ip) b n.ip)
      have hle := @addIP_leIPs (tab.removeIP b e.ip) b n.ip
      cases ha : (tab.removeIP b e.ip).addIP b n.ip with | mk ok tab' =>
      rw [ha] at h hsame hle
      cases ok
      case true => contradiction
      case false =>
        refine ⟨hsame.trans addIP_same, fun _ hok => ?_⟩
        have hok := hle.addIP_ok <| addIP_leIPs.addIP_ok hok
        rw [ha] at hok
        contradiction

theorem bump_true (h : (tab.bumpInBucket b n).fst) :
    n.id ∈ (tab.buckets b).entries.map (·.id) ∧ ∃ tab', tab.Same tab' ∧
      (tab.bumpInBucket b n).snd =
        tab'.setEntries b (n :: (tab.buckets b).entries.eraseP (·.id = n.id)) := by
  unfold bumpInBucket at h ⊢
  dsimp only at h ⊢
  split
  case h_1 hf =>
    rw [hf] at h
    contradiction
  case h_2 e hf =>
    simp only [hf] at h
    refine ⟨mem_map.mpr ⟨e, List.mem_of_find?_eq_some hf, by simpa using List.find?_some hf⟩, ?_⟩
    split
    case isTrue hip => exact ⟨tab, .refl tab, rfl⟩
    case isFalse hip =>
      rw [if_neg hip] at h
      have hsame := removeIP_same.trans (@addIP_same (tab.removeIP b e.ip) b n.ip)
      cases ha : (tab.removeIP b e.ip).addIP b n.ip with | mk ok tab' =>
      rw [ha] at h hsame
      cases ok
      case true  => exact ⟨tab', hsame, rfl⟩
      case false => contradiction

theorem bump_structured (hs : tab.Structured me) : (tab.bumpInBucket b n).snd.Structured me := by
  cases h : (tab.bumpInBucket b n).fst
  case false => exact hs.congr (bump_false h).left
  case true =>
    obtain ⟨hm, tab', hsame, he⟩ := bump_true h
    rw [he]
    refine (hs.congr hsame).setBucket ?_
    dsimp only
    rw [hsame.placed, hsame.replacements]
    exact (hs.sound b).perm (bump_ids hm)

theorem delete_structured (hs : tab.Structured me) : (tab.deleteInBucket b n).Structured me := by
  unfold deleteInBucket
  split
  case isFalse => exact hs
  case isTrue =>
    refine Structured.congr (hs.setBucket ?_) removeIP_same
    rw [deleteNode_ids]
    exact (hs.sound b).sublist erase_sublist (List.Sublist.refl _)

theorem replace_structured {pick : Nat} (hs : tab.Structured me) :
    (tab.replace b n pick).Structured me := by
  unfold replace
  dsimp only
  split
  case isTrue => exact hs
  case isFalse hl =>
    split
    case h_1 => exact delete_structured hs
    case h_2 r hr =>
      have hne : (tab.buckets b).entries ≠ [] := by
        intro he
        simp [he] at hl
      refine Structured.congr (hs.setBucket ?_) removeIP_same
      rw [map_append, map_dropLast, deleteNode_ids]
      exact (hs.sound b).replace (by simpa using hne) (mem_map_of_mem (mem_of_getElem? hr))

-- The end of `addSeenNode` and of `addVerifiedNode`, which place the new entry by `f`.
def place (tab : Table) (b : Fin nBuckets) (n : Node) (f : List Node → List Node) : Table :=
  match tab.addIP b n.ip with
  | (false, tab) => tab
  | (true, tab)  =>
    tab.setBucket b { tab.buckets b with
      entries := f (tab.buckets b).entries
      replacements := deleteNode (tab.buckets b).replacements n
    }

theorem place_cases {f : List Node → List Node} :
    (¬(tab.addIP b n.ip).fst ∧ tab.place b n f = (tab.addIP b n.ip).snd) ∨
    ((tab.addIP b n.ip).fst ∧ tab.place b n f =
      (tab.addIP b n.ip).snd.setBucket b { (tab.addIP b n.ip).snd.buckets b with
        entries := f (tab.buckets b).entries
        replacements := deleteNode (tab.buckets b).replacements n }) := by
  have hsame := @addIP_same tab b n.ip
  rw [← hsame.entries, ← hsame.replacements, place]
  cases tab.addIP b n.ip with | mk ok tab' =>
  cases ok
  case false => exact .inl ⟨Bool.false_ne_true, rfl⟩
  case true  => exact .inr ⟨rfl, rfl⟩

theorem place_structured (f : List Node → List Node) (hs : tab.Structured me)
    (hp : tab.Placed b n.id)
    (hn : n.id ∈ (tab.buckets b).entries.map (·.id) → ¬(tab.addIP b n.ip).fst)
    (hl : (tab.buckets b).entries.length < bucketSize)
    (hf : (f (tab.buckets b).entries).Perm ((tab.buckets b).entries ++ [n])) :
    (tab.place b n f).Structured me := by
  obtain ⟨-, he⟩ | ⟨hok, he⟩ := @place_cases tab b n f
  case inl => exact he ▸ hs.congr addIP_same
  case inr =>
    rw [he]
    refine (hs.congr addIP_same).setBucket ?_
    rw [addIP_same.placed, deleteNode_ids]
    refine ((hs.sound b).add (by rwa [length_map]) (fun h => hn h hok) hp).perm ?_
    simpa using hf.map (·.id)

theorem pushNode_perm {ns : List Node} {max : Nat} (h : ns.length < max) :
    (pushNode ns n max).fst.Perm (ns ++ [n]) := by
  rw [pushNode, if_pos h]
  exact (perm_append_singleton ..).symm

theorem addSeenNode_structured (hs : tab.Structured me) : (tab.addSeenNode n).Structured me := by
  unfold addSeenNode
  split
  case isTrue => exact hs
  case isFalse hself =>
    dsimp only
    split
    case isTrue => exact hs
    case isFalse hc =>
      rw [contains_iff] at hc
      split
      case isTrue     => exact addReplacement_structured hs ⟨hself, rfl⟩ fun h => absurd h hc
      case isFalse hl =>
        refine place_structured (· ++ [n]) hs ⟨hself, rfl⟩ (fun h => absurd h hc) ?_ (.refl _)
        exact Nat.lt_of_not_le hl

theorem addVerifiedNode_structured {initDone : Bool} (hs : tab.Structured me) :
    (tab.addVerifiedNode initDone n).Structured me := by
  unfold addVerifiedNode
  split
  case isTrue => exact hs
  case isFalse =>
    split
    case isTrue => exact hs
    case isFalse hself =>
      have hb := @bump_structured tab (tab.bucket n.id) n me hs
      have hf := @bump_false tab (tab.bucket n.id) n
      dsimp only
      cases h : tab.bumpInBucket (tab.bucket n.id) n with | mk ok tab₁ =>
      rw [h] at hb hf
      cases ok
      case true => exact hb
      case false =>
        obtain ⟨hsame, hfail⟩ := hf rfl
        have hp : tab₁.Placed (tab.bucket n.id) n.id := hsame.placed ▸ ⟨hself, rfl⟩
        rw [← hsame.entries] at hfail
        dsimp only
        split
        case isTrue => exact addReplacement_structured hb hp hfail
        case isFalse hl =>
          have hl := Nat.lt_of_not_le hl
          exact place_structured (pushNode · n bucketSize |>.fst) hb hp hfail hl (pushNode_perm hl)

theorem finishRevalidate_structured {p : Ping} {pick : Nat} (hs : tab.Structured me) :
    (tab.finishRevalidate n b p pick).Structured me := by
  unfold finishRevalidate
  dsimp only
  split
  case h_1 => exact bump_structured hs
  case h_2 => exact replace_structured hs

structure WellFormed (me : Hash) (tab : Table) : Prop where
  entries : ∀ b, (tab.buckets b).entries.length ≤ bucketSize
  replacements : ∀ b, (tab.buckets b).replacements.length ≤ maxReplacements
  distinct : (tab.nodes.map (·.id)).Nodup
  placed : ∀ b, ∀ n ∈ (tab.buckets b).nodes,
    b = bucketAtDistance (Enode.logDist me n.id) (Enode.logDist_le me n.id)
  others : ∀ n ∈ tab.nodes, n.id ≠ me

theorem mem_nodes : n ∈ tab.nodes ↔ ∃ b, n ∈ (tab.buckets b).nodes := by
  simp [nodes, mem_ofFn]

theorem Structured.wellFormed (hs : tab.Structured me) : tab.WellFormed me := by
  obtain ⟨rfl, hs⟩ := hs
  have hp (b : Fin nBuckets) (n : Node) (hn : n ∈ (tab.buckets b).nodes) : tab.Placed b n.id := by
    refine (hs b).forall_mem n.id ?_
    rw [← map_append]
    exact mem_map_of_mem hn
  refine ⟨fun b => ?_, fun b => ?_, ?_, fun b n hn => (hp b n hn).right.symm, fun n hn => ?_⟩
  case refine_1 => simpa using (hs b).entries
  case refine_2 => simpa using (hs b).replacements
  case refine_3 =>
    rw [nodes, map_flatten, map_ofFn, nodup_flatten]
    refine ⟨fun l hl => ?_, pairwise_ofFn.mpr fun b b' hlt id hb hb' => ?_⟩
    case refine_1 =>
      obtain ⟨b, rfl⟩ := (mem_ofFn ..).mp hl
      have hn := (hs b).nodup
      rwa [← map_append] at hn
    case refine_2 =>
      obtain ⟨n, hn, rfl⟩ := mem_map.mp hb
      obtain ⟨n', hn', he⟩ := mem_map.mp hb'
      have hne := (hp b n hn).right
      rw [← he, (hp b' n' hn').right] at hne
      exact absurd hne.symm (Fin.ne_of_lt hlt)
  case refine_4 =>
    obtain ⟨b, hn⟩ := mem_nodes.mp hn
    exact (hp b n hn).left

end Table

open Transition.System

theorem Session.step_structured {s : Session} {e : Event} (hs : s.tab.Structured me) :
    (s.step e).tab.Structured me := by
  cases e
  case addSeenNode n     => exact Table.addSeenNode_structured hs
  case addVerifiedNode n => exact Table.addVerifiedNode_structured hs
  case delete n          => exact Table.delete_structured hs
  case startRevalidate   => exact hs
  case finishRevalidate i p pick =>
    unfold step
    dsimp only
    split
    case h_1 => exact hs
    case h_2 => exact Table.finishRevalidate_structured hs

theorem init_structured (self : Hash) : (sessions self).init.tab.Structured self where
  self := rfl
  sound b := ⟨by simp [sessions], by simp [sessions], .nil, by simp [sessions]⟩

theorem sessions_wellFormed (self : Hash) (s : Session) (r : (sessions self).Reachable anyStep s) :
    s.tab.WellFormed self := by
  refine Table.Structured.wellFormed <| r.invariant (I := fun s => s.tab.Structured self) ?_ ?_
  case refine_1 => exact init_structured self
  case refine_2 =>
    intro s e s' hs _ he
    cases he
    exact Session.step_structured hs

-- The three nodes belong to one bucket, and the last of them does not answer.
def threeNodes : List Event := [
  .addSeenNode ⟨⟨.fill 1, 1, [8, 8, 8, 8]⟩, 0⟩,
  .addSeenNode ⟨⟨.fill 2, 1, [9, 9, 9, 9]⟩, 0⟩,
  .addSeenNode ⟨⟨.fill 3, 1, [10, 0, 0, 1]⟩, 0⟩,
  .startRevalidate (List.finRange nBuckets),
  .finishRevalidate 0 ⟨0, some ⟨"timeout"⟩, .error ⟨"timeout"⟩⟩ 0
]

theorem sessions_wellFormed_sample : ∃ s,
    (sessions .zero).run (sessions .zero).init threeNodes = .ok s ∧ s.tab.nodes.length = 2 ∧
      s.tab.WellFormed .zero := by
  obtain ⟨s, hs, hl⟩ : ∃ s, (sessions .zero).run (sessions .zero).init threeNodes = .ok s ∧
      s.tab.nodes.length = 2 := ⟨_, rfl, by decide⟩
  exact ⟨s, hs, hl, sessions_wellFormed .zero s (.run .init (fun _ _ _ => trivial) hs)⟩

end Operations
end Discover

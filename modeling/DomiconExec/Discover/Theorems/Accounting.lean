import DomiconExec.Discover.Theorems.Structure
import Mathlib.Algebra.BigOperators.Fin

open List

namespace Netutil

variable {s : DistinctNetSet} {ip ip' : IP} {ips : List IP} {k : Bytes} {max : Nat}
variable {c c' : Bytes → Nat}

-- The subnet to which an address belongs. The table and the buckets distinguish the same subnets.
def subnetOf (ip : IP) : Bytes :=
  subnetKey Discover.tableSubnet ip

def counted (k : Bytes) (ip : IP) : Bool :=
  !isLAN ip && subnetOf ip = k

def load (k : Bytes) (ips : List IP) : Nat :=
  ips.countP (counted k)

theorem to4_of_equal (h : ip.equal ip') : ip = ip' ∨ ∃ ip4, ip.to4 = some ip4 ∧ ip'.to4 = some ip4 := by
  unfold IP.equal at h
  split at h
  case isTrue => exact .inl (of_decide_eq_true h)
  case isFalse hne =>
    refine .inr ?_
    unfold IP.to4
    split at h
    case isTrue hl =>
      obtain ⟨hp, he⟩ := of_decide_eq_true h
      have hn : ¬ip'.length = 4 := by omega
      exact ⟨ip, by rw [if_pos hl.left], by rw [if_neg hn, if_pos ⟨hl.right, hp⟩, he]⟩
    case isFalse =>
      split at h
      case isTrue hl =>
        obtain ⟨hp, he⟩ := of_decide_eq_true h
        have hn : ¬ip.length = 4 := by omega
        exact ⟨ip', by rw [if_neg hn, if_pos ⟨hl.left, hp⟩, he], by rw [if_pos hl.right]⟩
      case isFalse => contradiction

theorem length_of_equal (h : ip.equal ip') (hn : ip'.length ≠ 0) : ip.length ≠ 0 := by
  unfold IP.equal at h
  split at h
  case isTrue hl => rwa [hl]
  case isFalse =>
    split at h
    case isTrue hl => omega
    case isFalse =>
      split at h
      case isTrue hl => omega
      case isFalse   => contradiction

-- Both forms of an IPv4 address are counted alike.
theorem counted_of_equal (h : ip.equal ip') : counted k ip = counted k ip' := by
  obtain rfl | ⟨ip4, h, h'⟩ := to4_of_equal h
  case inl => rfl
  case inr => simp only [counted, isLAN, IP.isLoopback, subnetOf, subnetKey, h, h']

-- Two addresses are counted alike if both belong to the local network, or both to one other subnet.
def Alike (ip ip' : IP) : Prop :=
  isLAN ip = isLAN ip' ∧ (¬isLAN ip → subnetOf ip = subnetOf ip')

theorem Alike.counted (h : Alike ip ip') : counted k ip = counted k ip' := by
  unfold Netutil.counted
  rw [← h.left]
  by_cases hl : isLAN ip
  case pos => simp [hl]
  case neg => rw [h.right hl]

-- The counters of a set.
structure Tallies (max : Nat) (s : DistinctNetSet) (c : Bytes → Nat) : Prop where
  subnet : s.subnet = Discover.tableSubnet
  limit : s.limit = max
  count : ∀ k, s.count k = c k
  bound : ∀ k, c k ≤ max
  positive : ∀ k, s.members.get k ≠ some 0

theorem Tallies.congr (h : Tallies max s c) (hc : ∀ k, c k = c' k) : Tallies max s c' where
  subnet := h.subnet
  limit := h.limit
  count k := (h.count k).trans (hc k)
  bound k := hc k ▸ h.bound k
  positive := h.positive

theorem Tallies.key (h : Tallies max s c) : s.key = subnetOf := by
  unfold DistinctNetSet.key
  rw [h.subnet]
  rfl

theorem counted_of_not_lan (h : ¬isLAN ip) : counted k ip ↔ k = subnetOf ip := by
  simp [counted, h, eq_comm]

theorem Tallies.add_ok (h : Tallies max s c) : (s.add ip).fst ↔ c (subnetOf ip) < max := by
  rw [DistinctNetSet.add_ok, h.count, h.key, h.limit]

theorem Tallies.add (h : Tallies max s c) (hl : ¬isLAN ip) (ha : (s.add ip).fst) :
    Tallies max (s.add ip).snd fun k => c k + if counted k ip then 1 else 0 where
  subnet := DistinctNetSet.add_le.subnet.trans h.subnet
  limit := DistinctNetSet.add_le.limit.trans h.limit
  count k := by
    simp only [DistinctNetSet.add_count ha, h.count, h.key, counted_of_not_lan hl]
  bound k := by
    split
    case isTrue hk => exact (counted_of_not_lan hl).mp hk ▸ h.add_ok.mp ha
    case isFalse   => exact h.bound k
  positive k := by
    rw [DistinctNetSet.add, if_pos (DistinctNetSet.add_ok.mp ha), GoMap.get_set]
    split
    case isTrue  => simp
    case isFalse => exact h.positive k

theorem remove_positive (h : ∀ k, s.members.get k ≠ some 0) (k : Bytes) :
    (s.remove ip).members.get k ≠ some 0 := by
  unfold DistinctNetSet.remove
  split
  case h_1 => exact h k
  case h_2 n hn =>
    split
    case isTrue =>
      rw [GoMap.get_del]
      split
      case isTrue  => simp
      case isFalse => exact h k
    case isFalse h₁ =>
      have h₀ : n ≠ 0 := fun h₀ => h _ (h₀ ▸ hn)
      rw [GoMap.get_set]
      split
      case isTrue  => simp only [ne_eq, Option.some.injEq]; omega
      case isFalse => exact h k

theorem Tallies.remove (h : Tallies max s fun k => c k + if counted k ip then 1 else 0)
    (hl : ¬isLAN ip) : Tallies max (s.remove ip) c where
  subnet := DistinctNetSet.remove_subnet.trans h.subnet
  limit := DistinctNetSet.remove_limit.trans h.limit
  count k := by
    rw [DistinctNetSet.remove_count, h.count, h.key]
    simp only [counted_of_not_lan hl, Nat.add_sub_cancel]
  bound k := (Nat.le_add_right ..).trans (h.bound k)
  positive := remove_positive h.positive
end Netutil

namespace Discover
open Netutil

variable {tab tab' : Table} {b b' : Fin nBuckets} {n e : Node} {ip : IP} {ips ips' : List IP}
variable {k : Bytes} {me : Hash}

def ipsOf (ns : List Node) : List IP :=
  ns.map fun n => n.ip

theorem ipsOf_perm {ns ns' : List Node} (h : ns.Perm ns') : (ipsOf ns).Perm (ipsOf ns') :=
  h.map _

def Routed (ips : List IP) : Prop :=
  ∀ ip ∈ ips, ip.length ≠ 0

theorem Routed.perm (h : Routed ips) (hp : ips.Perm ips') : Routed ips' :=
  fun ip hm => h ip (hp.symm.subset hm)

theorem Routed.cons (h : Routed ips) (hip : ip.length ≠ 0) : Routed (ip :: ips) :=
  forall_mem_cons.mpr ⟨hip, h⟩

theorem Routed.tail (h : Routed (ip :: ips)) : Routed ips :=
  (forall_mem_cons.mp h).right

def Bucket.ipList (bucket : Bucket) : List IP :=
  ipsOf bucket.nodes

namespace Table

variable {ns entries replacements : List Node}

-- The number of counted addresses of a subnet outside of a bucket.
def elsewhere (tab : Table) (b : Fin nBuckets) (k : Bytes) : Nat :=
  ∑ b' ∈ Finset.univ.erase b, load k (tab.buckets b').ipList

-- The counters are those for `ips` in the bucket `b`, and the actual ones in the other buckets.
structure Charged (b : Fin nBuckets) (ips : List IP) (tab : Table) : Prop where
  table : Tallies tableIPLimit tab.ips fun k => load k ips + tab.elsewhere b k
  bucket : Tallies bucketIPLimit (tab.buckets b).ips fun k => load k ips
  others : ∀ b' ≠ b, Routed (tab.buckets b').ipList ∧
    Tallies bucketIPLimit (tab.buckets b').ips fun k => load k (tab.buckets b').ipList

theorem Charged.congr (h : Charged b ips tab) (hl : ∀ k, load k ips = load k ips') :
    Charged b ips' tab := by
  obtain ⟨h₁, h₂, h₃⟩ := h
  simp only [hl] at h₁ h₂
  exact ⟨h₁, h₂, h₃⟩

theorem Charged.perm (h : Charged b ips tab) (hp : ips.Perm ips') : Charged b ips' tab :=
  h.congr fun _ => hp.countP_eq _

theorem load_cons : load k (ip :: ips) = load k ips + if counted k ip then 1 else 0 :=
  countP_cons ..

theorem load_lan (h : isLAN ip) : load k (ip :: ips) = load k ips := by
  simp [load_cons, counted, h]

theorem elsewhere_setBucket {bucket : Bucket} {ips : DistinctNetSet} :
    ({ tab with ips }.setBucket b bucket).elsewhere b k = tab.elsewhere b k := by
  refine Finset.sum_congr rfl fun b' hb => ?_
  rw [setBucket_buckets, if_neg (Finset.ne_of_mem_erase hb)]

theorem others_setBucket {bucket : Bucket} {set : DistinctNetSet} (h : Charged b ips tab)
    (hne : b' ≠ b) : Routed (({ tab with ips := set }.setBucket b bucket).buckets b').ipList ∧
      Tallies bucketIPLimit (({ tab with ips := set }.setBucket b bucket).buckets b').ips
        fun k => load k (({ tab with ips := set }.setBucket b bucket).buckets b').ipList := by
  rw [setBucket_buckets, if_neg hne]
  exact h.others b' hne

theorem Charged.setNodes (h : Charged b ips tab) :
    Charged b ips (tab.setBucket b { tab.buckets b with entries, replacements }) where
  table := by
    have ht := h.table
    simp only [← @elsewhere_setBucket tab b _ { tab.buckets b with entries, replacements } tab.ips] at ht
    exact ht
  bucket := by
    rw [setBucket_same_bucket]
    exact h.bucket
  others b' hne := others_setBucket h hne

theorem Charged.addIP (h : Charged b ips tab) (ha : (tab.addIP b ip).fst) :
    Charged b (ip :: ips) (tab.addIP b ip).snd := by
  obtain ⟨hf, -⟩ | ⟨hl, he⟩ | ⟨hl, ht, hb, he⟩ := @addIP_cases tab b ip
  case inl =>
    rw [hf] at ha
    contradiction
  case inr.inl => exact he ▸ h.congr fun k => (load_lan hl).symm
  case inr.inr =>
    rw [he]
    refine ⟨?_, ?_, fun b' hne => others_setBucket h hne⟩
    case refine_1 =>
      simp only [elsewhere_setBucket, load_cons]
      exact (h.table.add hl ht).congr fun k => Nat.add_right_comm ..
    case refine_2 =>
      rw [setBucket_same_bucket]
      simp only [load_cons]
      exact h.bucket.add hl hb

theorem Charged.addIP_fails (h : Charged b ips tab) (ha : ¬(tab.addIP b ip).fst) :
    Charged b ips (tab.addIP b ip).snd := by
  obtain ⟨-, he | ⟨hl, hok, he⟩⟩ | ⟨-, he⟩ | ⟨-, -, -, he⟩ := @addIP_cases tab b ip
  case inl.inl => exact he.symm ▸ h
  case inl.inr =>
    rw [he]
    exact ⟨(h.table.add hl hok).remove hl, h.bucket, h.others⟩
  all_goals exact absurd (he ▸ rfl) ha

theorem Charged.removeIP (h : Charged b (ip :: ips) tab) : Charged b ips (tab.removeIP b ip) := by
  unfold Table.removeIP
  split
  case isTrue hl => exact h.congr fun k => load_lan hl
  case isFalse hl =>
    refine ⟨?_, ?_, fun b' hne => others_setBucket h hne⟩
    case refine_1 =>
      have ht := h.table
      simp only [load_cons] at ht
      simp only [elsewhere_setBucket]
      exact (ht.congr fun k => Nat.add_right_comm ..).remove hl
    case refine_2 =>
      have hb := h.bucket
      simp only [load_cons] at hb
      rw [setBucket_same_bucket]
      exact hb.remove hl

-- The counters are those for the nodes of the table, which all have an address.
structure Balanced (tab : Table) : Prop where
  routed : ∀ b, Routed (tab.buckets b).ipList
  charged : ∀ b, Charged b (tab.buckets b).ipList tab

theorem load_add_elsewhere :
    load k (tab.buckets b).ipList + tab.elsewhere b k = ∑ b, load k (tab.buckets b).ipList :=
  Finset.add_sum_erase _ (fun b => load k (tab.buckets b).ipList) (Finset.mem_univ b)

theorem Charged.balanced (h : Charged b ips tab) (hr : Routed (tab.buckets b).ipList)
    (hl : ∀ k, load k ips = load k (tab.buckets b).ipList) : tab.Balanced := by
  replace h := h.congr hl
  have hall (b' : Fin nBuckets) : Routed (tab.buckets b').ipList ∧
      Tallies bucketIPLimit (tab.buckets b').ips fun k => load k (tab.buckets b').ipList := by
    by_cases hb : b' = b
    case pos => exact hb ▸ ⟨hr, h.bucket⟩
    case neg => exact h.others b' hb
  refine ⟨fun b' => (hall b').left, fun b' => ⟨h.table.congr fun k => ?_, (hall b').right, ?_⟩⟩
  case refine_1 => rw [load_add_elsewhere, load_add_elsewhere]
  case refine_2 => exact fun b'' _ => hall b''

theorem Same.elsewhere (h : ∀ b, (tab'.buckets b).ipList = (tab.buckets b).ipList) :
    tab'.elsewhere b k = tab.elsewhere b k :=
  Finset.sum_congr rfl fun b' _ => by rw [h b']

theorem Same.ipList (h : tab.Same tab') : (tab'.buckets b).ipList = (tab.buckets b).ipList := by
  rw [Bucket.ipList, Bucket.ipList, Bucket.nodes, Bucket.nodes, h.entries, h.replacements]

theorem find?_perm {p : Node → Bool} (h : ns.find? p = some e) :
    ns.Perm (e :: ns.eraseP p) := by
  induction ns
  case nil => contradiction
  case cons m ns hi =>
    by_cases hp : p m
    case pos =>
      rw [List.find?_cons_of_pos hp] at h
      rw [eraseP_cons_of_pos hp, Option.some.inj h]
    case neg =>
      rw [List.find?_cons_of_neg hp] at h
      rw [eraseP_cons_of_neg hp]
      exact ((hi h).cons m).trans (List.Perm.swap ..)

theorem Balanced.same (hb : tab.Balanced) (hs : tab.Same tab')
    (h : Charged b (tab.buckets b).ipList tab') : tab'.Balanced := by
  refine h.balanced ?_ fun k => by rw [hs.ipList]
  rw [hs.ipList]
  exact hb.routed b

theorem addIP_fails_balanced (hb : tab.Balanced) (h : ¬(tab.addIP b ip).fst) :
    (tab.addIP b ip).snd.Balanced :=
  hb.same addIP_same ((hb.charged b).addIP_fails h)

theorem Charged.balanced_setNodes (h : Charged b ips tab)
    (hr : Routed (ipsOf (entries ++ replacements)))
    (hl : ∀ k, load k ips = load k (ipsOf (entries ++ replacements))) :
    (tab.setBucket b { tab.buckets b with entries, replacements }).Balanced := by
  refine h.setNodes.balanced ?_ fun k => ?_
  all_goals rw [setBucket_same_bucket]
  case refine_1 => exact hr
  case refine_2 => exact hl k

theorem Charged.balanced_of_perm (h : Charged b ips tab) (hr : Routed ips)
    (hp : ips.Perm (ipsOf (entries ++ replacements))) :
    (tab.setBucket b { tab.buckets b with entries, replacements }).Balanced :=
  h.balanced_setNodes (hr.perm hp) fun _ => hp.countP_eq _

theorem Charged.balanced_removeIP (h : Charged b (ip :: ips) tab) (hr : Routed ips)
    (hp : ips.Perm (ipsOf (entries ++ replacements))) :
    ((tab.setBucket b { tab.buckets b with entries, replacements }).removeIP b ip).Balanced := by
  refine h.setNodes.removeIP.balanced ?_ fun k => ?_
  all_goals
    rw [removeIP_same.ipList, setBucket_same_bucket]
  case refine_1 => exact hr.perm hp
  case refine_2 => exact hp.countP_eq _

theorem getLast?_perm (h : ns.getLast? = some e) : ns.Perm (e :: ns.dropLast) := by
  obtain ⟨l, rfl⟩ := List.getLast?_eq_some_iff.mp h
  rw [dropLast_concat]
  exact perm_append_singleton ..

theorem addReplacement_balanced (hb : tab.Balanced) : (tab.addReplacement b n).Balanced := by
  unfold addReplacement
  split
  case isTrue => exact hb
  case isFalse =>
    have hsame := @addIP_same tab b n.ip
    have hfail := @addIP_fails_balanced tab b n.ip hb
    have hok := @Charged.addIP tab b n.ip _ (hb.charged b)
    have hip := @addIP_ok tab b n.ip
    have hr := hb.routed b
    cases ha : tab.addIP b n.ip with | mk ok tab' =>
    rw [ha] at hsame hfail hok hip
    cases ok
    case false => exact hfail Bool.false_ne_true
    case true =>
      replace hr := hr.cons (hip.mp rfl).left
      replace hok : Charged b (n.ip :: (tab.buckets b).ipList) tab' := hok rfl
      rw [← hsame.ipList] at hok hr
      by_cases hl : (tab'.buckets b).replacements.length < maxReplacements
      case pos =>
        simp only [pushNode, if_pos hl]
        exact hok.balanced_of_perm hr <| ipsOf_perm perm_middle.symm
      case neg =>
        obtain ⟨r, hlast⟩ : ∃ r, (tab'.buckets b).replacements.getLast? = some r := by
          refine Option.isSome_iff_exists.mp (List.getLast?_isSome.mpr fun h => hl ?_)
          rw [h]
          decide
        simp only [pushNode, if_neg hl, hlast]
        -- The replacement that is dropped is charged until its address is removed.
        have hp : (n.ip :: (tab'.buckets b).ipList).Perm (r.ip :: ipsOf ((tab'.buckets b).entries ++
            n :: (tab'.buckets b).replacements.dropLast)) := by
          refine @ipsOf_perm (n :: (tab'.buckets b).nodes) (r :: (_ ++ n :: _)) ?_
          calc n :: ((tab'.buckets b).entries ++ (tab'.buckets b).replacements)
            List.Perm _ (n :: ((tab'.buckets b).entries ++ r :: (tab'.buckets b).replacements.dropLast)) :=
              ((getLast?_perm hlast).append_left _).cons n
            List.Perm _ (n :: r :: ((tab'.buckets b).entries ++ (tab'.buckets b).replacements.dropLast)) :=
              perm_middle.cons n
            List.Perm _ (r :: n :: ((tab'.buckets b).entries ++ (tab'.buckets b).replacements.dropLast)) :=
              List.Perm.swap ..
            List.Perm _ (r :: ((tab'.buckets b).entries ++ n :: (tab'.buckets b).replacements.dropLast)) :=
              perm_middle.symm.cons r
        exact (hok.perm hp).balanced_removeIP (hr.perm hp).tail (.refl _)

-- An address that was removed can be put back as long as nothing else was added.
theorem Charged.addIP_back (h : Charged b (ip :: ips) tab) (h' : Charged b ips tab')
    (he : ∀ k, tab'.elsewhere b k = tab.elsewhere b k) (hip : ip.length ≠ 0) :
    (tab'.addIP b ip).fst := by
  rw [Table.addIP_ok]
  refine ⟨hip, ?_⟩
  by_cases hl : isLAN ip
  case pos => exact .inl hl
  case neg =>
    have hc : counted (subnetOf ip) ip := (counted_of_not_lan hl).mpr rfl
    have ht := h.table.bound (subnetOf ip)
    have hb := h.bucket.bound (subnetOf ip)
    rw [load_cons, if_pos hc] at ht hb
    rw [h'.table.add_ok, h'.bucket.add_ok, he]
    exact .inr ⟨by omega, by omega⟩

theorem bump_balanced (hb : tab.Balanced) : (tab.bumpInBucket b n).snd.Balanced := by
  unfold bumpInBucket
  dsimp only
  split
  case h_1 => exact hb
  case h_2 e hf =>
    have hips : (tab.buckets b).ipList.Perm (e.ip :: ipsOf
        ((tab.buckets b).entries.eraseP (·.id = n.id) ++ (tab.buckets b).replacements)) :=
      ipsOf_perm <| (find?_perm hf).append_right _
    have hr := (hb.routed b).perm hips
    have hc := (hb.charged b).perm hips
    split
    case isTrue heq =>
      refine hc.balanced_setNodes (hr.tail.cons ?_) fun k => ?_
      case refine_1 => exact length_of_equal heq (forall_mem_cons.mp hr).left
      case refine_2 =>
        rw [cons_append, ipsOf, ipsOf, map_cons, load_cons, load_cons, counted_of_equal heq]
    case isFalse =>
      have hfail := @Charged.addIP_fails _ b n.ip _ hc.removeIP
      have hok := @Charged.addIP _ b n.ip _ hc.removeIP
      have hip := @addIP_ok (tab.removeIP b e.ip) b n.ip
      have hsame := removeIP_same.trans (@addIP_same (tab.removeIP b e.ip) b n.ip)
      cases ha : (tab.removeIP b e.ip).addIP b n.ip with | mk ok tab' =>
      rw [ha] at hfail hok hsame hip
      cases ok
      case true =>
        have hrep : (tab'.buckets b).replacements = (tab.buckets b).replacements := hsame.replacements b
        refine (hok rfl).balanced_of_perm (hr.tail.cons (hip.mp rfl).left) ?_
        rw [hrep]
        exact .refl _
      case false =>
        replace hfail : Charged b _ tab' := hfail Bool.false_ne_true
        have hback : (tab'.addIP b e.ip).fst :=
          hc.addIP_back hfail (fun k => Same.elsewhere fun b => hsame.ipList) (forall_mem_cons.mp hr).left
        exact hb.same (hsame.trans addIP_same) ((hfail.addIP hback).perm hips.symm)

theorem deleteInBucket_balanced (hb : tab.Balanced)
    (ha : ∀ e ∈ (tab.buckets b).entries, e.id = n.id → Alike e.ip n.ip) :
    (tab.deleteInBucket b n).Balanced := by
  unfold deleteInBucket
  split
  case isFalse => exact hb
  case isTrue hc =>
    obtain ⟨e, hf⟩ : ∃ e, (tab.buckets b).entries.find? (·.id = n.id) = some e := by
      refine Option.isSome_iff_exists.mp ?_
      simpa [contains] using hc
    have hal := ha e (List.mem_of_find?_eq_some hf) (by simpa using List.find?_some hf)
    have hips : (tab.buckets b).ipList.Perm (e.ip :: ipsOf
        (deleteNode (tab.buckets b).entries n ++ (tab.buckets b).replacements)) :=
      ipsOf_perm <| (find?_perm hf).append_right _
    refine Charged.balanced_removeIP (((hb.charged b).perm hips).congr fun k => ?_)
      ((hb.routed b).perm hips).tail (.refl _)
    rw [load_cons, load_cons, hal.counted]

-- A replacement is deleted itself, since no other one has its identifier.
theorem deleteNode_perm {r : Node} (hn : (ns.map (·.id)).Nodup) (hr : r ∈ ns) :
    ns.Perm (r :: deleteNode ns r) := by
  refine find?_perm (List.find?_eq_some_iff_append.mpr ⟨decide_eq_true rfl, ?_⟩)
  obtain ⟨l, l', rfl⟩ := append_of_mem hr
  refine ⟨l, l', rfl, fun m hm => ?_⟩
  rw [map_append, map_cons, nodup_append] at hn
  have hne := hn.right.right m.id (mem_map_of_mem hm) r.id List.mem_cons_self
  simpa using hne

theorem replace_balanced {pick : Nat} (hs : tab.Structured me) (hb : tab.Balanced)
    (ha : ∀ e, (tab.buckets b).entries.getLast? = some e → e.id = n.id → Alike e.ip n.ip) :
    (tab.replace b n pick).Balanced := by
  unfold replace
  dsimp only
  split
  case isTrue => exact hb
  case isFalse hl =>
    obtain ⟨e, hlast, hid⟩ := Option.map_eq_some_iff.mp (not_not.mp hl)
    have hal := ha e hlast hid
    split
    case h_1 =>
      refine deleteInBucket_balanced hb fun e' he' hid' => ?_
      have hn := (nodup_append.mp (hs.sound b).nodup).left
      have he := mem_of_getLast? hlast
      rwa [inj_on_of_nodup_map hn he' he (hid'.trans hid.symm)]
    case h_2 r hr =>
      have hn := (nodup_append.mp (hs.sound b).nodup).right.left
      have hips : (tab.buckets b).ipList.Perm (e.ip :: ipsOf ((tab.buckets b).entries.dropLast ++ [r] ++
          deleteNode (tab.buckets b).replacements r)) := by
        refine @ipsOf_perm _ (e :: (_ ++ [r] ++ _)) ?_
        have hr := deleteNode_perm hn (mem_of_getElem? hr)
        rw [append_assoc]
        exact ((getLast?_perm hlast).append_right _).trans ((hr.append_left _).cons e)
      refine Charged.balanced_removeIP (((hb.charged b).perm hips).congr fun k => ?_)
        ((hb.routed b).perm hips).tail (.refl _)
      rw [load_cons, load_cons, hal.counted]

-- The node is no replacement with a counted address, which would not be removed and counted twice.
def Uncounted (tab : Table) (b : Fin nBuckets) (n : Node) : Prop :=
  ∀ r ∈ (tab.buckets b).replacements, r.id = n.id → isLAN r.ip

theorem load_deleteNode (h : ∀ r ∈ ns, r.id = n.id → isLAN r.ip) :
    load k (ipsOf (deleteNode ns n)) = load k (ipsOf ns) := by
  induction ns
  case nil => rfl
  case cons m ns hi =>
    obtain ⟨hm, hns⟩ := forall_mem_cons.mp h
    by_cases hid : m.id = n.id
    case pos => simp [deleteNode, ipsOf, hid, load_lan (hm hid)]
    case neg =>
      have hi := hi hns
      simp only [deleteNode, ipsOf] at hi
      simp [deleteNode, ipsOf, hid, load_cons, hi]

theorem load_append {ns' : List Node} :
    load k (ipsOf (ns ++ ns')) = load k (ipsOf ns) + load k (ipsOf ns') := by
  simp [load, ipsOf]

theorem place_balanced (f : List Node → List Node) (hb : tab.Balanced)
    (hu : (tab.addIP b n.ip).fst → tab.Uncounted b n)
    (hf : (f (tab.buckets b).entries).Perm ((tab.buckets b).entries ++ [n])) :
    (tab.place b n f).Balanced := by
  obtain ⟨hno, he⟩ | ⟨hok, he⟩ := @place_cases tab b n f
  case inl => exact he ▸ addIP_fails_balanced hb hno
  case inr =>
    have hr := (hb.routed b).cons (addIP_ok.mp hok).left
    rw [he]
    refine ((hb.charged b).addIP hok).balanced_setNodes ?_ fun k => ?_
    case refine_1 =>
      refine fun ip hm => hr ip ?_
      obtain ⟨m, hmem, rfl⟩ := mem_map.mp hm
      refine mem_map_of_mem (f := fun n : Node => n.ip) (l := n :: (tab.buckets b).nodes) ?_
      obtain hm | hm := mem_append.mp hmem
      case inl =>
        obtain hm | hm := mem_append.mp (hf.subset hm)
        case inl => exact mem_cons_of_mem n (mem_append_left _ hm)
        case inr => exact mem_singleton.mp hm ▸ List.mem_cons_self
      case inr => exact mem_cons_of_mem n (mem_append_right _ (mem_of_mem_eraseP hm))
    case refine_2 =>
      have hl : load k (ipsOf (f (tab.buckets b).entries)) =
          load k (ipsOf ((tab.buckets b).entries ++ [n])) := (ipsOf_perm hf).countP_eq _
      have hn : load k (ipsOf [n]) = if counted k n.ip then 1 else 0 := List.countP_singleton
      rw [load_append, load_deleteNode (hu hok), hl, load_append, load_cons, Bucket.ipList,
        Bucket.nodes, load_append, hn, Nat.add_right_comm]

-- Whether a node that is not in the entries would be added to them.
def Admits (tab : Table) (n : Node) : Prop :=
  n.id ∉ (tab.buckets (tab.bucket n.id)).entries.map (·.id) ∧
  (tab.buckets (tab.bucket n.id)).entries.length < bucketSize ∧
  (tab.addIP (tab.bucket n.id) n.ip).fst

theorem addSeenNode_balanced (hb : tab.Balanced)
    (hu : tab.Admits n → tab.Uncounted (tab.bucket n.id) n) : (tab.addSeenNode n).Balanced := by
  unfold addSeenNode
  split
  case isTrue => exact hb
  case isFalse hself =>
    dsimp only
    split
    case isTrue => exact hb
    case isFalse hc =>
      rw [contains_iff] at hc
      split
      case isTrue     => exact addReplacement_balanced hb
      case isFalse hl =>
        refine place_balanced (· ++ [n]) hb (fun hok => hu ⟨hc, ?_, hok⟩) (.refl _)
        exact Nat.lt_of_not_le hl

theorem bump_of_not_mem (h : n.id ∉ (tab.buckets b).entries.map (·.id)) :
    tab.bumpInBucket b n = (false, tab) := by
  have hf : (tab.buckets b).entries.find? (·.id = n.id) = none := by
    refine List.find?_eq_none.mpr fun e he hid => h ?_
    exact mem_map.mpr ⟨e, he, of_decide_eq_true hid⟩
  rw [bumpInBucket, hf]

theorem addVerifiedNode_balanced {initDone : Bool} (hb : tab.Balanced)
    (hu : initDone → tab.Admits n → tab.Uncounted (tab.bucket n.id) n) :
    (tab.addVerifiedNode initDone n).Balanced := by
  unfold addVerifiedNode
  split
  case isTrue => exact hb
  case isFalse hi =>
    split
    case isTrue => exact hb
    case isFalse hself =>
      have hbump := @bump_balanced tab (tab.bucket n.id) n hb
      have hf := @bump_false tab (tab.bucket n.id) n
      have hout := @bump_of_not_mem tab (tab.bucket n.id) n
      dsimp only
      cases h : tab.bumpInBucket (tab.bucket n.id) n with | mk ok tab₁ =>
      rw [h] at hbump hf hout
      cases ok
      case true => exact hbump
      case false =>
        dsimp only
        split
        case isTrue => exact addReplacement_balanced hbump
        case isFalse hl =>
          have hl := Nat.lt_of_not_le hl
          refine place_balanced (pushNode · n bucketSize |>.fst) hbump (fun hok => ?_) (pushNode_perm hl)
          by_cases hm : n.id ∈ (tab.buckets (tab.bucket n.id)).entries.map (·.id)
          case pos => exact absurd hok ((hf rfl).right hm)
          case neg =>
            cases hout hm
            exact hu (by simpa using hi) ⟨hm, hl, hok⟩

-- The counters are the numbers of nodes, so that the limits are exact and nothing stays counted.
structure Accounted (tab : Table) : Prop where
  table : ∀ k, tab.ips.count k = tab.nodes.countP (counted k ·.ip)
  bucket : ∀ b k, (tab.buckets b).ips.count k = (tab.buckets b).nodes.countP (counted k ·.ip)
  bounded : ∀ b k, tab.nodes.countP (counted k ·.ip) ≤ tableIPLimit ∧
    (tab.buckets b).nodes.countP (counted k ·.ip) ≤ bucketIPLimit
  limits : ∀ b ip, (tab.addIP b ip).fst ↔ ip.length ≠ 0 ∧ (isLAN ip ∨
    tab.nodes.countP (counted (subnetOf ip) ·.ip) < tableIPLimit ∧
    (tab.buckets b).nodes.countP (counted (subnetOf ip) ·.ip) < bucketIPLimit)
  freed : tab.nodes = [] → tab.ips.members = ∅ ∧ ∀ b, (tab.buckets b).ips.members = ∅

theorem load_ipsOf : load k (ipsOf ns) = ns.countP (counted k ·.ip) :=
  List.countP_map

theorem sum_load : ∑ b, load k (tab.buckets b).ipList = tab.nodes.countP (counted k ·.ip) := by
  rw [nodes, countP_flatten, map_ofFn, sum_ofFn]
  exact Finset.sum_congr rfl fun b _ => load_ipsOf

theorem members_eq_empty {s : DistinctNetSet} {max : Nat} {c : Bytes → Nat} (h : Tallies max s c)
    (hc : ∀ k, c k = 0) : s.members = ∅ := by
  refine GoMap.ext fun k => ?_
  have hz := (h.count k).trans (hc k)
  rw [DistinctNetSet.count] at hz
  cases hg : s.members.get k
  case none => rw [GoMap.get_empty]
  case some m =>
    rw [hg, Option.getD_some] at hz
    exact absurd (hz ▸ hg) (h.positive k)

theorem Balanced.accounted (hb : tab.Balanced) : tab.Accounted := by
  have ht (b : Fin nBuckets) := (hb.charged b).table.congr fun k => load_add_elsewhere.trans sum_load
  have hk (b : Fin nBuckets) := (hb.charged b).bucket.congr fun k => load_ipsOf
  have h₀ : Fin nBuckets := ⟨0, by decide⟩
  refine ⟨(ht h₀).count, fun b => (hk b).count, fun b k => ⟨(ht b).bound k, (hk b).bound k⟩,
    fun b ip => ?_, fun hn => ⟨?_, fun b => ?_⟩⟩
  case refine_1 => rw [addIP_ok, (ht b).add_ok, (hk b).add_ok]
  case refine_2 => exact members_eq_empty (ht h₀) fun k => by rw [hn]; rfl
  case refine_3 =>
    refine members_eq_empty (hk b) fun k => ?_
    have he : (tab.buckets b).nodes = [] := by
      refine eq_nil_iff_forall_not_mem.mpr fun n hm => ?_
      exact absurd (mem_nodes.mpr ⟨b, hm⟩) (hn ▸ not_mem_nil)
    rw [he]
    rfl
end Table

namespace Session

open Transition.System

-- The steps that keep the counters in order, judged by the state before.
def Settles (s : Session) : Event → Prop
  | .addSeenNode n              => s.tab.Admits n → s.tab.Uncounted (s.tab.bucket n.id) n
  | .addVerifiedNode initDone n =>
    initDone → s.tab.Admits n → s.tab.Uncounted (s.tab.bucket n.id) n
  | .delete n                   =>
    ∀ e ∈ (s.tab.buckets (s.tab.bucket n.id)).entries, e.id = n.id → Alike e.ip n.ip
  | .startRevalidate _          => True
  | .finishRevalidate i p _     => p.err ≠ none → ∀ last bi, s.revalidations[i]? = some (last, bi) →
    ∀ e, (s.tab.buckets bi).entries.getLast? = some e → e.id = (p.refresh last).id →
      Alike e.ip (p.refresh last).ip

theorem step_balanced {s : Session} {e : Event} (hs : s.tab.Structured me) (hb : s.tab.Balanced)
    (h : s.Settles e) : (s.step e).tab.Balanced := by
  cases e
  case addSeenNode n     => exact Table.addSeenNode_balanced hb h
  case addVerifiedNode n => exact Table.addVerifiedNode_balanced hb h
  case delete n          => exact Table.deleteInBucket_balanced hb h
  case startRevalidate   => exact hb
  case finishRevalidate i p pick =>
    unfold step
    dsimp only
    split
    case h_1 => exact hb
    case h_2 last bi hr =>
      dsimp only [Table.finishRevalidate]
      split
      case h_1     => exact Table.bump_balanced hb
      case h_2 err he => exact Table.replace_balanced hs hb (h (by simp [he]) last bi hr)

theorem init_balanced (self : Hash) : (sessions self).init.tab.Balanced := by
  have hz (max : Nat) (c : Bytes → Nat) (hc : ∀ k, c k = 0) :
      Tallies max { subnet := tableSubnet, limit := max } c := by
    refine ⟨rfl, rfl, fun k => ?_, fun k => ?_, fun k => ?_⟩
    case refine_1 => rw [hc, DistinctNetSet.count, GoMap.get_empty]; rfl
    case refine_2 => rw [hc]; exact Nat.zero_le _
    case refine_3 => simp
  refine ⟨fun b ip hm => absurd hm not_mem_nil, fun b => ⟨?_, ?_, fun b' _ => ⟨?_, ?_⟩⟩⟩
  case refine_1 =>
    exact hz _ _ fun k => by
      simp [sessions, Table.elsewhere, Bucket.ipList, Bucket.nodes, ipsOf, load]
  case refine_2 => exact hz _ _ fun k => rfl
  case refine_3 => exact fun ip hm => absurd hm List.not_mem_nil
  case refine_4 => exact hz _ _ fun k => rfl

end Session

open Transition.System

-- The accounting of the subnets in every run whose steps keep it in order.
theorem sessions_accounted (self : Hash) (s : Session)
    (r : (sessions self).Reachable Session.Settles s) : s.tab.Accounted := by
  refine Table.Balanced.accounted <| And.right <|
    r.invariant (I := fun s => s.tab.Structured self ∧ s.tab.Balanced) ?_ ?_
  case refine_1 => exact ⟨init_structured self, Session.init_balanced self⟩
  case refine_2 =>
    rintro s e s' ⟨hs, hb⟩ hg he
    cases he
    exact ⟨Session.step_structured hs, Session.step_balanced hs hb hg⟩

-- A node that is known with two addresses of different subnets.
def moved (ip : IP) : Node where
  id := .fill 1
  seq := 1
  ip := ip
  livenessChecks := 0

theorem sessions_accounted_sample : ∃ s,
    (sessions .zero).run (sessions .zero).init threeNodes = .ok s ∧ s.tab.nodes.length = 2 ∧
      s.tab.Accounted := by
  refine ⟨_, rfl, by decide, sessions_accounted .zero _ <|
    .step (.step (.step (.step (.step .init ?_ rfl) ?_ rfl) ?_ rfl) ?_ rfl) ?_ rfl⟩
  case refine_4 => trivial
  case refine_5 =>
    intro _ last bi hr e he _
    cases hr
    cases he
    exact ⟨rfl, fun _ => rfl⟩
  all_goals exact fun _ r hr => absurd hr List.not_mem_nil

-- The node was deleted under its second address, and its first subnet is still counted.
theorem not_always_accounted :
    ¬∀ (self : Hash) (s : Session), (sessions self).Reachable anyStep s → s.tab.Accounted := by
  intro h
  have ha := h .zero (((sessions .zero).init.step (.addSeenNode (moved [8, 8, 8, 8]))).step
    (.delete (moved [9, 9, 9, 9]))) (.step (.step .init trivial rfl) trivial rfl)
  have hn := (ha.freed (by decide)).left
  exact absurd hn (by decide)
end Discover

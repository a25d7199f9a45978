import DomiconExec.Eth.Theorems.Gossip
import DomiconExec.Eth.Theorems.Marks

namespace Eth

variable {fds : List DA} {da : DA} {peers : List Broadcaster}

-- All data is sent unless some is illegal, and what is marked are the hashes of what is sent.
structure Sends (fds : List DA) : Prop where
  sent : (sendFileDatas false fds).snd = none ↔ ∀ da ∈ fds, da.IsLegal
  marks : ∀ hash, hash ∈ (sendFileDatas false fds).fst ↔
    (sendFileDatas false fds).snd = none ∧ ∃ da ∈ fds, hash ∈ da.hashes

-- Behind data without a commitment all data has a transaction hash, and there are only commitments
-- whose hashes are marked for another reason.
def Separate (fds : List DA) : Prop :=
  ∀ da ∈ sticky fds, da.txHash ≠ .zero ∧ (¬da.commitIsEmpty →
    (∃ g ∈ plain fds, da.commitment.hash ∈ g.hashes) ∨
    ∃ g ∈ sticky fds, da.commitment.hash = g.txHash)

theorem Separate.sendFileDatas (h : Separate fds) : (sendFileDatas false fds).snd = none :=
  sendFileDatas_snd.mpr fun da hd => (h da hd).left

theorem sends_of_separate (h : Separate fds) : Sends fds where
  sent := iff_of_true h.sendFileDatas (isLegal_of_sendFileDatas h.sendFileDatas)
  marks := by
    intro hash
    rw [and_iff_right h.sendFileDatas, mem_sendFileDatas h.sendFileDatas]
    constructor
    case mp =>
      rintro (⟨da, hd, hh⟩ | ⟨da, hd, rfl⟩)
      case inl => exact ⟨da, mem_plain_or_sticky.mpr (.inl hd), hh⟩
      case inr =>
        exact ⟨da, mem_plain_or_sticky.mpr (.inr hd), DA.mem_hashes.mpr (.inr ⟨(h da hd).left, rfl⟩)⟩
    case mpr =>
      rintro ⟨da, hd, hh⟩
      obtain hd | hd := mem_plain_or_sticky.mp hd
      case inl => exact .inl ⟨da, hd, hh⟩
      case inr =>
        obtain ⟨hc, rfl⟩ | ⟨-, rfl⟩ := DA.mem_hashes.mp hh
        case inl => exact (h da hd).right hc
        case inr => exact .inr ⟨da, hd, rfl⟩

theorem Sends.separate (h : Sends fds) (hs : (sendFileDatas false fds).snd = none) :
    Separate fds := by
  intro da hd
  refine ⟨sendFileDatas_snd.mp hs da hd, fun hc => ?_⟩
  rw [← mem_sendFileDatas hs, h.marks, and_iff_right hs]
  exact ⟨da, mem_plain_or_sticky.mpr (.inr hd), DA.mem_hashes.mpr (.inl ⟨hc, rfl⟩)⟩

theorem sends_iff : Sends fds ↔ (∃ da rest, fds = da :: rest ∧ ¬da.IsLegal) ∨ Separate fds := by
  constructor
  case mp =>
    intro h
    by_cases hs : (sendFileDatas false fds).snd = none
    case pos => exact .inr (h.separate hs)
    case neg =>
      -- Nothing is sent, so that nothing may be marked.
      have hm : (sendFileDatas false fds).fst = [] :=
        List.eq_nil_iff_forall_not_mem.mpr fun hash hh => hs ((h.marks hash).mp hh).left
      cases fds
      case nil           => exact absurd rfl hs
      case cons da rest  => exact .inl ⟨da, rest, rfl, fun hl => sendFileDatas_cons_ne_nil hl hm⟩
  case mpr =>
    rintro (⟨da, rest, rfl, hl⟩ | h)
    case inl =>
      have hs := @sendFileDatas_cons_of_not rest da hl
      constructor
      case sent  => simp [hs, hl]
      case marks => simp [hs]
    case inr => exact sends_of_separate h

section Broadcast

open Gossip

def KnowsNone (peer : Peer) (da : DA) : Prop :=
  ∀ hash ∈ da.hashes, ¬peer.knownFds.contains hash

theorem isWithOut_iff {peer : Peer} (h : da.IsLegal) : isWithOut peer da ↔ KnowsNone peer da := by
  unfold DA.IsLegal at h
  unfold isWithOut KnowsNone DA.hashes
  by_cases hc : da.commitIsEmpty <;> by_cases ht : da.txHash = .zero <;>
    simp [hc, ht, and_comm] at h ⊢

def queued (peers : List Broadcaster) (fds : List DA) : List (Nat × Hash) :=
  (broadcastFileData peers fds []).getD []

theorem broadcastFileData_eq_some {fdset : List (Nat × Hash)} (h : ∀ da ∈ fds, da.IsLegal) :
    broadcastFileData peers fds fdset =
      some (fdset ++ fds.flatMap fun da => (peersWithOut peers da).map (·, hashOf da)) := by
  induction fds generalizing fdset
  case nil => rw [List.flatMap_nil, List.append_nil]; rfl
  case cons da fds hi =>
    rw [List.forall_mem_cons] at h
    rw [broadcastFileData, List.foldlM_cons, choose, if_neg h.left, List.flatMap_cons,
      ← List.append_assoc]
    exact hi h.right

theorem broadcastFileData_eq_none {fdset : List (Nat × Hash)} (h : ¬∀ da ∈ fds, da.IsLegal) :
    broadcastFileData peers fds fdset = none := by
  induction fds generalizing fdset
  case nil => exact absurd (List.forall_mem_nil _) h
  case cons da fds hi =>
    rw [broadcastFileData, List.foldlM_cons, choose]
    split
    case isTrue     => rfl
    case isFalse hl => exact hi fun hf => h (List.forall_mem_cons.mpr ⟨hl, hf⟩)

def Queues (peers : List Broadcaster) (fds : List DA) : Prop :=
  ∀ da ∈ fds, da.IsLegal → ∀ (i : Nat) (b : Broadcaster), peers[i]? = some b →
    b.connection = .registered → KnowsNone b.peer da → hashOf da ∈ hashesFor (queued peers fds) i

theorem queues_of_isLegal (h : ∀ da ∈ fds, da.IsLegal) : Queues peers fds := by
  intro da hd hl i b hb hc hk
  have hi := mem_peersWithOut hb hc ((isWithOut_iff hl).mpr hk)
  have hm : (i, hashOf da) ∈ queued peers fds := by
    rw [queued, broadcastFileData_eq_some h]
    exact List.mem_flatMap.mpr ⟨da, hd, List.mem_map_of_mem hi⟩
  exact List.mem_map.mpr ⟨_, List.mem_filter.mpr ⟨hm, decide_eq_true rfl⟩, rfl⟩

theorem Queues.not_knowsNone (h : Queues peers fds) (hf : ¬∀ da ∈ fds, da.IsLegal) :
    ∀ da ∈ fds, da.IsLegal → ∀ b ∈ peers, b.connection = .registered →
      ¬KnowsNone b.peer da := by
  intro da hd hl b hb hc hk
  obtain ⟨i, hi⟩ := List.mem_iff_getElem?.mp hb
  have hm := h da hd hl i b hi hc hk
  rw [queued, broadcastFileData_eq_none hf] at hm
  contradiction

theorem queues_iff : Queues peers fds ↔ (∀ da ∈ fds, da.IsLegal) ∨
    ∀ da ∈ fds, da.IsLegal → ∀ b ∈ peers, b.connection = .registered → ¬KnowsNone b.peer da := by
  constructor
  case mp => exact fun h => or_iff_not_imp_left.mpr h.not_knowsNone
  case mpr =>
    rintro (h | h)
    case inl => exact queues_of_isLegal h
    case inr =>
      exact fun da hd hl i b hb hc hk => absurd hk (h da hd hl b (List.mem_of_getElem? hb) hc)

end Broadcast

-- Illegal data must not spoil a broadcast that a peer waits for, nor data without a commitment the
-- data behind it.
theorem itemByItem_iff (peers : List Broadcaster) (fds fds' : List DA) :
    (Queues peers fds ∧ Sends fds') ↔
    ((∀ da ∈ fds, da.IsLegal) ∨
      ∀ da ∈ fds, da.IsLegal → ∀ b ∈ peers, b.connection = .registered → ¬KnowsNone b.peer da) ∧
    ((∃ da rest, fds' = da :: rest ∧ ¬da.IsLegal) ∨ Separate fds') :=
  and_congr queues_iff sends_iff

def bare : DA :=
  { DA.zero with txHash := .fill 1 }

def pledge : DA :=
  { DA.zero with commitment := { Digest.zero with x := ⟨[6, 0, 0, 0], rfl⟩ } }

theorem not_itemByItem :
    (¬∀ (peers : List Broadcaster) (fds : List DA), Queues peers fds) ∧
      ¬∀ fds : List DA, Sends fds := by
  constructor
  case left =>
    intro h
    have hn := (h [Gossip.waiting] [bare, .zero]).not_knowsNone fun hf => hf .zero (by simp) ⟨rfl, rfl⟩
    refine hn bare (by simp) (by decide) Gossip.waiting (by simp) rfl ?_
    simp [KnowsNone, KnownCache.contains, Gossip.waiting, newPeer, KnownCache.newKnownCache]
  case right =>
    intro h
    have hs := (h [bare, pledge]).sent.mpr (by decide)
    exact absurd hs (by decide)

end Eth

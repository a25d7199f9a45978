import DomiconExec.Eth.Theorems.Crash
import DomiconExec.Fetcher.Theorems.Delivery

open List

namespace Fetcher
namespace State

variable {s s₂ s' : State} {p q : Peer} {h k : Hash} {o : Oracle} {hashes : List Hash}
  {d : FdDelivery} {req : FdRequest}

theorem eq_singleton_of_nodup {l : List Hash} (hd : l.Nodup) (hn : l ≠ [])
    (hh : ∀ k ∈ l, k = h) : l = [h] := by
  have hr := eq_replicate_of_mem hh
  have hl : l.length ≤ 1 := nodup_replicate.mp (hr ▸ hd)
  have hp : 0 < l.length := length_pos_iff.mpr hn
  rw [hr, Nat.le_antisymm hl hp]
  rfl

-- The peer had no request in state `s₂`, and all that it was asked for since then was available.
structure Fresh (p : Peer) (s₂ s : State) : Prop where
  announces : s.announces = s₂.announces
  fetching : ∀ h, h ∈ s₂.fetching → h ∈ s.fetching
  request : ∀ req, s.requests.get p = some req → req.hashes ≠ [] ∧ req.stolen = ∅ ∧
    ∀ h ∈ req.hashes, s₂.announces.Tracks p h ∧ h ∉ s₂.fetching

theorem Fresh.refl (hp : p ∉ s.requests) : Fresh p s s :=
  ⟨rfl, fun _ => id, fun _ hr => absurd (GoMap.mem_of_get hr) hp⟩

theorem Requested.fresh (r : Requested q hashes s s') (b : Fresh p s₂ s) : Fresh p s₂ s' := by
  obtain ⟨t, hr⟩ := r.requests
  constructor
  case announces => exact r.announces.trans b.announces
  case fetching =>
    intro h hf
    have := r.fetching h
    have := b.fetching h hf
    grind
  case request =>
    intro req hg
    rw [hr, GoMap.get_set] at hg
    split at hg
    case isFalse => exact b.request req hg
    case isTrue hp =>
      cases hg
      subst hp
      refine ⟨r.ne_nil, rfl, fun h hm => ⟨b.announces ▸ r.tracked h hm, ?_⟩⟩
      exact mt (b.fetching h) (r.eligible h hm).left

-- The peer is not listed for the hash.
structure Unlisted (p : Peer) (h : Hash) (s : State) : Prop where
  announced : ¬HasOrigin s.announced h p
  alternates : ¬HasOrigin s.alternates h p

theorem Requested.unlisted (r : Requested q hashes s s') (b : Unlisted p h s) :
    Unlisted p h s' := by
  have := b.announced
  have := b.alternates
  constructor
  case announced  => rw [r.hasOrigin_announced]; grind
  case alternates => rw [r.hasOrigin_alternates]; grind

-- The peer has no request yet, and `h` is the only hash that it can be asked for.
structure Pending (p : Peer) (h : Hash) (s : State) : Prop where
  idle : p ∉ s.requests
  tracked : s.announces.Tracks p h
  missing : h ∉ s.fetching
  only : ∀ k, s.announces.Tracks p k → k = h ∨ k ∈ s.fetching
  others : ∀ q, q ≠ p → s.announces.Tracks q h → q ∈ s.requests

-- The peer was asked for `h`, and for nothing else.
def Asked (p : Peer) (h : Hash) (s : State) : Prop :=
  ∃ req, s.requests.get p = some req ∧ req.hashes = [h]

theorem Requested.asked (r : Requested q hashes s s') (b : Asked p h s) : Asked p h s' := by
  obtain ⟨req, hg, hh⟩ := b
  obtain ⟨t, hr⟩ := r.requests
  have hq : p ≠ q := by
    rintro rfl
    exact r.idle (GoMap.mem_of_get hg)
  exact ⟨req, by rw [hr, GoMap.get_set_ne hq, hg], hh⟩

theorem Requested.asked_of_pending (r : Requested p hashes s s') (b : Pending p h s) :
    Asked p h s' := by
  obtain ⟨t, hr⟩ := r.requests
  have hh : ∀ k ∈ hashes, k = h := fun k hm =>
    b.only k (r.tracked k hm) |>.resolve_right (r.eligible k hm).left
  exact ⟨_, by rw [hr, GoMap.get_set_self], eq_singleton_of_nodup r.nodup r.ne_nil hh⟩

theorem Requested.pending (r : Requested q hashes s s') (hq : q ≠ p) (b : Pending p h s) :
    Pending p h s' := by
  have hm : h ∉ hashes := fun hm => r.idle <| b.others q hq <| r.tracked h hm
  obtain ⟨t, hr⟩ := r.requests
  have hf := r.fetching
  constructor
  case idle    => rw [hr]; have := b.idle; grind
  case tracked => exact r.announces ▸ b.tracked
  case missing => have := b.missing; have := hf h; grind
  case only =>
    intro k hk
    have := b.only k (r.announces ▸ hk)
    have := hf k
    grind
  case others =>
    intro q' hn ht
    have := b.others q' hn (r.announces ▸ ht)
    rw [hr]
    grind

theorem scheduleFetches_asked (o : Oracle) (i : Sound none s) (b : Pending p h s) :
    ∃ s', s.scheduleFetches o none = .ok s' ∧ Asked p h s' := by
  have hp : p ∈ o.peerOrder.list s.announces.keys := by
    obtain ⟨_, hg, _⟩ := Tracker.tracks_iff.mp b.tracked
    simpa using GoMap.mem_of_get hg
  -- The peer stays pending until it is its turn.
  let I (l : List Peer) (s : State) := Sound none s ∧ (Pending p h s ∧ p ∈ l ∨ Asked p h s)
  have body q l s : I (q :: l) s → ∃ s', s.schedulePeer o q = .ok s' ∧ I l s' := by
    rintro ⟨i, hc⟩
    obtain ⟨s', he, hr⟩ := schedulePeer_head (s := s) o q fun _ => i.alternates_iff.mp
    refine ⟨s', he, ?_⟩
    obtain ⟨rfl, hn⟩ | ⟨hashes, r, _⟩ := hr
    case inl =>
      refine ⟨i, ?_⟩
      obtain ⟨b, hm⟩ | b := hc
      case inr => exact .inr b
      case inl =>
        have hq : p ≠ q := by
          rintro rfl
          exact hn.elim b.idle fun hn => b.missing (hn h b.tracked)
        exact .inl ⟨b, (mem_cons.mp hm).resolve_left hq⟩
    case inr =>
      refine ⟨r.sound i, ?_⟩
      obtain ⟨b, hm⟩ | b := hc
      case inr => exact .inr (r.asked b)
      case inl =>
        by_cases hq : q = p
        case pos => exact .inr ((hq ▸ r).asked_of_pending b)
        case neg => exact .inl ⟨r.pending hq b, (mem_cons.mp hm).resolve_left (Ne.symm hq)⟩
  obtain ⟨s', he, _, hc⟩ := Loop.foldlM_rule (l := o.peerOrder.list s.announces.keys) I body
    ⟨i, .inl ⟨b, hp⟩⟩
  exact ⟨s', he, hc.resolve_left fun hc => not_mem_nil hc.right⟩

-- The request to a peer is still there, and so are the hashes that nobody else has delivered.
structure Keeps (p : Peer) (req : FdRequest) (s : State) : Prop where
  request : ∃ req', s.requests.get p = some req' ∧ req'.hashes = req.hashes
  fetching : ∀ h, Live req h → h ∈ s.fetching
  origin : ∀ h, Live req h → HasOrigin s.alternates h p

-- The only hash of the request was delivered by someone else, it is the only one that the peer can
-- be asked for after the delivery of `l`, and nobody else can be asked for it.
structure Renewed (s : State) (l : List Hash) (p : Peer) (req : FdRequest) (h : Hash) : Prop where
  hashes : req.hashes = [h]
  stolen : h ∈ req.stolen
  tracked : s.announces.Tracks p h
  kept : ¬Sweeps l s h
  missing : h ∉ s.fetching
  only : ∀ k, s.announces.Tracks p k → k = h ∨ Sweeps l s k ∨ k ∈ s.fetching
  others : ∀ q, q ≠ p → s.announces.Tracks q h → q ∈ s.requests

theorem Renewed.not_live (n : Renewed s d.hashes p req h) : ¬Live req k := by
  rintro ⟨hm, hs⟩
  rw [n.hashes, mem_singleton] at hm
  exact hs (hm ▸ n.stolen)

theorem Concluded.pending (c : Concluded d req s s₂) (n : Renewed s d.hashes d.origin req h) :
    Pending d.origin h s₂ := by
  have hl k : ¬Live req k := n.not_live
  constructor
  case idle    => simp [c.requests]
  case tracked => simp [c.announces, n.tracked, n.kept, hl]
  case missing => simp [c.fetching, n.missing]
  case only =>
    intro k hk
    have := n.only k
    rw [c.announces] at hk
    rw [c.fetching]
    grind
  case others =>
    intro q hq ht
    rw [c.announces] at ht
    exact (c.requests q).mpr ⟨hq, n.others q hq ht.left⟩

theorem keeps_of_renewed (i : Sound none s) (hd : d.direct)
    (hr : s.requests.get d.origin = some req) (n : Renewed s d.hashes d.origin req h) :
    ∃ s', s.cleanup o d = .ok s' ∧ Keeps d.origin req s' := by
  obtain ⟨s₂, i₂, c, hc⟩ := cleanup_concluded o i hd hr
  obtain ⟨s', he, req', hg, hh⟩ := scheduleFetches_asked o i₂ (c.pending n)
  refine ⟨s', hc.trans he, ⟨req', hg, hh.trans n.hashes.symm⟩, ?_, ?_⟩
  all_goals exact fun k hl => absurd hl n.not_live

-- The peer can be asked for the hash after its request was answered.
structure Available (s : State) (d : FdDelivery) (req : FdRequest) (h : Hash) : Prop where
  tracked : s.announces.Tracks d.origin h
  kept : ¬Sweeps d.hashes s h
  accepted : ¬(Live req h ∧ Refused d req h)
  missing : h ∈ s.fetching → Live req h

theorem Concluded.available_iff (c : Concluded d req s s₂) :
    Available s d req h ↔ s₂.announces.Tracks d.origin h ∧ h ∉ s₂.fetching where
  mp b := by
    have := b.kept
    have := b.accepted
    have := b.missing
    rw [c.announces, c.fetching]
    exact ⟨⟨b.tracked, by grind⟩, by grind⟩
  mpr hc := by
    rw [c.announces, c.fetching] at hc
    constructor <;> grind

section Keeps

variable (i : Sound none s) (hd : d.direct) (hr : s.requests.get d.origin = some req)
  (hk : ∀ o, ∃ s', s.cleanup o d = .ok s' ∧ Keeps d.origin req s')

include i hd hr hk

theorem keeps_cases (o : Oracle) : ∃ s₂ s', Sound none s₂ ∧ Concluded d req s s₂ ∧
    s₂.scheduleFetches o none = .ok s' ∧ Sound none s' ∧ Fresh d.origin s₂ s' ∧
    Keeps d.origin req s' := by
  obtain ⟨s', he, k⟩ := hk o
  obtain ⟨s₂, i₂, c, hc⟩ := cleanup_concluded o i hd hr
  have b : Fresh d.origin s₂ s₂ := .refl (by simp [c.requests])
  obtain ⟨s₃, hs, i₃, b⟩ := scheduleFetches_rule (o := o) (w := none) i₂ b
    fun _ _ _ _ _ b r => r.fresh b
  cases (hc.trans hs).symm.trans he
  exact ⟨s₂, _, i₂, c, hs, i₃, b, k⟩

theorem head_of_available (b : Available s d req h) : req.hashes.head? = some h := by
  obtain ⟨s₂, s', i₂, c, hs, _, _, k⟩ := keeps_cases i hd hr hk (leading d.origin h)
  obtain ⟨ht, hf⟩ := c.available_iff.mp b
  obtain ⟨s₃, hs', hl⟩ := scheduleFetches_leading i₂ (by simp [c.requests]) ht hf
  cases hs.symm.trans hs'
  obtain ⟨req₁, hg₁, hh₁⟩ := hl.request
  obtain ⟨req₂, hg₂, hh₂⟩ := k.request
  cases hg₁.symm.trans hg₂
  exact hh₂ ▸ hh₁

theorem available_of_keeps : req.hashes ≠ [] ∧ ∀ h ∈ req.hashes, Available s d req h := by
  obtain ⟨s₂, s', _, c, _, _, b, k⟩ := keeps_cases i hd hr hk (leading d.origin default)
  obtain ⟨req', hg, hh⟩ := k.request
  obtain ⟨hn, _, ha⟩ := b.request req' hg
  exact ⟨hh ▸ hn, fun h hm => c.available_iff.mpr (ha h (hh ▸ hm))⟩

theorem singleton_of_keeps : ∃ h, req.hashes = [h] := by
  obtain ⟨hn, ha⟩ := available_of_keeps i hd hr hk
  obtain ⟨h, l, hl⟩ := exists_cons_of_ne_nil hn
  refine ⟨h, eq_singleton_of_nodup (i.nodup hr) hn fun k hm => ?_⟩
  have := head_of_available i hd hr hk (ha k hm)
  simp_all

-- A hash that is still due is either refused, or the peer is not listed for it any more.
theorem stolen_of_keeps (hh : req.hashes = [h]) : h ∈ req.stolen := by
  by_contra hs
  have hl : Live req h := ⟨by simp [hh], hs⟩
  have b := (available_of_keeps i hd hr hk).right h hl.left
  have hm : h ∈ d.hashes := by
    by_contra hm
    refine b.accepted ⟨hl, hm, ?_⟩
    simp [hh, cutoff, hm]
  have hw : h ∈ s.waitlist := by
    by_contra hw
    exact b.kept ⟨hm, fun h => absurd h hw⟩
  obtain ⟨s₂, s', i₂, c, hs, _, _, k⟩ := keeps_cases i hd hr hk (leading d.origin h)
  have u : Unlisted d.origin h s₂ := by
    have hq : h ∉ s₂.announced := by
      have := mt i.announced_excl (not_not.mpr hw)
      have : remaining d req s h = ∅ := remaining_of_mem hm
      rw [c.announced]
      grind
    have hf : h ∉ s₂.alternates := by
      rw [i₂.alternates_iff, c.fetching]
      grind
    exact ⟨fun h => hq h.mem, fun h => hf h.mem⟩
  obtain ⟨s₃, hs', _, u⟩ := scheduleFetches_rule (o := leading d.origin h) (w := none) i₂ u
    fun _ _ _ _ _ u r => r.unlisted u
  cases hs.symm.trans hs'
  exact u.alternates (k.origin h hl)

-- If another peer is asked for the hash first, the request is gone.
theorem others_of_keeps (hh : req.hashes = [h]) (hq : q ≠ d.origin)
    (ht : s.announces.Tracks q h) : q ∈ s.requests := by
  by_contra hn
  have b := (available_of_keeps i hd hr hk).right h (by simp [hh])
  obtain ⟨s₂, s', i₂, c, hs, i', b', k⟩ := keeps_cases i hd hr hk (leading q h)
  have hf := (c.available_iff.mp b).right
  have ht₂ : s₂.announces.Tracks q h := (c.announces q h).mpr ⟨ht, b.kept, fun h => hq h.left⟩
  obtain ⟨s₃, hs', hl⟩ := scheduleFetches_leading i₂ (fun h => hn ((c.requests q).mp h).right) ht₂ hf
  cases hs.symm.trans hs'
  obtain ⟨req', hg, hh'⟩ := k.request
  obtain ⟨_, hs, _⟩ := b'.request req' hg
  have := i'.fetched (h := h) hg (by simp [hh', hh]) (by simp [hs])
  have := hl.fetching
  grind

theorem renewed_of_keeps : ∃ h, Renewed s d.hashes d.origin req h := by
  obtain ⟨h, hh⟩ := singleton_of_keeps i hd hr hk
  have hs := stolen_of_keeps i hd hr hk hh
  have hl k : ¬Live req k := by
    rintro ⟨hm, hn⟩
    rw [hh, mem_singleton] at hm
    exact hn (hm ▸ hs)
  have b := (available_of_keeps i hd hr hk).right h (by simp [hh])
  refine ⟨h, hh, hs, b.tracked, b.kept, fun hf => hl h (b.missing hf), ?_, ?_⟩
  case refine_1 =>
    intro k ht
    by_contra hc
    obtain ⟨hne, hc⟩ := not_or.mp hc
    obtain ⟨hk', hf⟩ := not_or.mp hc
    have := head_of_available i hd hr hk
      ⟨ht, hk', fun h => hl k h.left, fun h => absurd h hf⟩
    rw [hh] at this
    exact hne (Option.some.inj this).symm
  case refine_2 => exact fun q hq ht => others_of_keeps i hd hr hk hh hq ht

end Keeps
end State
end Fetcher

namespace Eth

open FilePool (Ref Heap)
open Fetcher Fetcher.State Transition.System

theorem handle_fileData_event {ctx : Context} {b : Backend} {peer : Peer} {fds : List Ref}
    {res : Result} {d : FdDelivery} (he : handle ctx b peer (.fileData fds) = .ok res)
    (hd : res.event = some (.cleanup d)) :
    d = .of peer.id (fds.map (reported ctx.heap)) true := by
  obtain ⟨⟨pool, event, err⟩, hq, he⟩ := Loop.bind_eq_ok he
  have hs := enqueue_eq_ok hq
  cases he
  cases hd
  unfold send at hs
  split at hs <;> simp_all

-- The request to the sender is still there only if it is replaced by one for the same hash, which
-- someone else has delivered in the meantime.
theorem keeps_iff_renewed (s : State) (req : FdRequest) (ctx : Context) (b : Backend) (peer : Peer)
    (fds : List Ref) (res : Result) (d : FdDelivery) (r : machine.Reachable anyStep s)
    (hr : s.requests.get peer.id = some req)
    (he : handle ctx b peer (.fileData fds) = .ok res) (hd : res.event = some (.cleanup d)) :
    (∀ o, ∃ s', machine.step s (o, .cleanup d) = .ok s' ∧ Keeps peer.id req s') ↔
      ∃ h, Renewed s (fds.map fun fd => (ctx.heap fd).txHash) peer.id req h := by
  have i := reachable_sound r
  have hd := handle_fileData_event he hd
  have hh : d.hashes = fds.map fun fd => (ctx.heap fd).txHash := by
    simp [hd, FdDelivery.of, reported]
  have hp : d.origin = peer.id := by rw [hd]; rfl
  have ht : d.direct := by rw [hd]; rfl
  rw [← hp] at hr ⊢
  rw [← hh]
  constructor
  case mp => exact renewed_of_keeps i ht hr
  case mpr =>
    rintro ⟨h, n⟩ o
    exact keeps_of_renewed i ht hr n

def unsolicited : DA :=
  { committed with txHash := .fill 2 }

def broadcastContext (popOrder : Nat → IterOrder Hash) : Context :=
  { quietContext popOrder with heap := fun _ => unsolicited, env := fun _ => committedEnv }

theorem handle_unsolicited (popOrder : Nat → IterOrder Hash) : ∃ res,
    handle (broadcastContext popOrder) emptyBackend newPeer (.fileData [0]) = .ok res ∧
    res.event = some (.cleanup (.of "p" [reported (fun _ => unsolicited) 0] true)) :=
  ⟨_, rfl, rfl⟩

-- The hash is requested from "p", delivered by "q", and announced by "p" once more.
noncomputable def reannouncedFixed : List (Oracle × Event) :=
  requestedFixed ++ [
    (early, .cleanup broadcastFixed),
    (early, .notify (announceFixed "p")),
    (late,  .waitTrigger)
  ]

theorem keeps_reannounced : ∃ s req res d,
    machine.run machine.init reannouncedFixed = .ok s ∧ s.requests.get "p" = some req ∧
    handle (broadcastContext fun _ => .along []) emptyBackend newPeer (.fileData [0]) = .ok res ∧
    res.event = some (.cleanup d) ∧
    ∀ o, ∃ s', machine.step s (o, .cleanup d) = .ok s' ∧ Keeps "p" req s' := by
  obtain ⟨s, req, hs, hr, hh, ht, ha, hp, hf, hn⟩ : ∃ s req,
      machine.run machine.init reannouncedFixed = .ok s ∧ s.requests.get "p" = some req ∧
      req.hashes = [fixedHash] ∧ fixedHash ∈ req.stolen ∧ s.announces.keys = {"p"} ∧
      (s.announces.of "p").keys = {fixedHash} ∧ fixedHash ∉ s.fetching ∧
      ¬Sweeps [.fill 2] s fixedHash :=
    ⟨_, _, rfl, rfl, rfl, by decide, by decide, by decide, by decide, by decide⟩
  obtain ⟨res, he, hd⟩ := handle_unsolicited fun _ => .along []
  refine ⟨s, req, res, _, hs, hr, he, hd, ?_⟩
  refine (keeps_iff_renewed s req _ _ newPeer _ _ _ (.run .init (fun _ _ _ => trivial) hs) hr he
    hd).mpr ⟨fixedHash, hh, ht, ?_, hn, hf, ?_, ?_⟩
  case refine_1 =>
    have : fixedHash ∈ (s.announces.of "p").keys := by simp [hp]
    exact this
  case refine_2 =>
    intro k (hk : k ∈ (s.announces.of "p").keys)
    exact .inl <| Finset.mem_singleton.mp (hp ▸ hk)
  case refine_3 =>
    intro q hq ht
    obtain ⟨_, hg, _⟩ := Tracker.tracks_iff.mp ht
    exact absurd (Finset.mem_singleton.mp <| ha ▸ GoMap.mem_keys.mpr (GoMap.mem_of_get hg)) hq

-- The peer broadcasts other data instead of the requested one, and is taken to have refused it.
theorem not_keeps_requested : ¬∀ (s : State) (req : FdRequest) (ctx : Context) (b : Backend)
    (peer : Peer) (fds : List Ref) (res : Result) (d : FdDelivery),
    machine.Reachable anyStep s → s.requests.get peer.id = some req →
    (∀ fd ∈ fds, ∀ k ∈ (ctx.heap fd).keys, k ∉ req.hashes) →
    handle ctx b peer (.fileData fds) = .ok res → res.event = some (.cleanup d) →
    ∀ o s', machine.step s (o, .cleanup d) = .ok s' → Keeps peer.id req s' := by
  intro h
  obtain ⟨res, he, hd⟩ := handle_unsolicited fun _ => .along []
  obtain ⟨s, req, s', hs, hr, hk, hs', hn⟩ : ∃ s req s',
      machine.run machine.init requestedFixed = .ok s ∧ s.requests.get "p" = some req ∧
      (∀ k ∈ unsolicited.keys, k ∉ req.hashes) ∧
      machine.step s (late, .cleanup (.of "p" [reported (fun _ => unsolicited) 0] true)) = .ok s' ∧
      s'.requests.get "p" = none := ⟨_, _, _, rfl, rfl, by decide, rfl, by decide⟩
  have k := h s req _ _ newPeer [0] res _ (.run .init (fun _ _ _ => trivial) hs) hr
    (fun fd _ => hk) he hd late s' hs'
  obtain ⟨_, hg, _⟩ := k.request
  cases hn.symm.trans hg

end Eth

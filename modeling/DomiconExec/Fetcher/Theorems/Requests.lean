import DomiconExec.Fetcher.Theorems.Exclusive

namespace Fetcher

open List Transition.System

namespace State

variable {s : State} {p q : Peer} {h : Hash}

def Awaits (s : State) (p : Peer) (h : Hash) : Prop :=
  ∃ req, s.requests.get p = some req ∧ Live req h

structure Ownership (s : State) : Prop where
  requested : ∀ h p, s.fetching.get h = some p → s.Awaits p h
  unique : ∀ h p q, s.Awaits p h → s.Awaits q h → p = q

theorem Sound.fetching_iff (i : Sound none s) : s.fetching.get h = some p ↔ s.Awaits p h := by
  constructor
  case mp => exact i.requested
  case mpr =>
    rintro ⟨req, hr, hm, hs⟩
    exact i.fetched hr hm hs |>.resolve_right (by simp)

theorem Sound.ownership (i : Sound none s) : s.Ownership where
  requested _ _ := i.fetching_iff.mp
  unique _ _ _ hp hq := Option.some.inj <|
    (i.fetching_iff.mpr hp).symm.trans (i.fetching_iff.mpr hq)

end State

theorem ownership_of_reachable (s : State) (r : machine.Reachable anyStep s) :
    s.Ownership ∧ ∀ e, machine.step s e ≠ .error .missingRequest := by
  have i := State.reachable_sound r
  refine ⟨i.ownership, ?_⟩
  intro e he
  obtain ⟨_, hs, _⟩ | hs := State.step_sound (e := e) i <;> cases hs.symm.trans he

theorem ownership_twoOrigins : ∃ s, machine.run machine.init twoOrigins = .ok s ∧
    s.fetching.get fixedHash = some "p" ∧ s.Ownership ∧
      ∀ e, machine.step s e ≠ .error .missingRequest := by
  obtain ⟨s, hs, hf⟩ : ∃ s, machine.run machine.init twoOrigins = .ok s ∧
      s.fetching.get fixedHash = some "p" := ⟨_, rfl, by decide⟩
  obtain ⟨ho, hm⟩ := ownership_of_reachable s <| .run .init (fun _ _ _ => trivial) hs
  exact ⟨s, hs, hf, ho, hm⟩

theorem Tracker.len_track_le {m : Tracker} {p : Peer} {h : Hash}
    (md : Option FdMetadata) : ((m.track p h md).of p).len ≤ (m.of p).len + 1 := by
  have he : (m.track p h md).of p = (m.of p).set h md := by simp [Tracker.track, Tracker.of]
  rw [he, GoMap.len, GoMap.keys_set]
  exact Finset.card_insert_le ..

namespace State

variable {s : State} {o : Oracle} {ann : FdAnnounce} {p : Peer}

def visited (s : State) (ann : FdAnnounce) : List (Hash × Option FdMetadata) :=
  if s.used ann.origin ≥ maxFdAnnounces then [] else s.considered ann

-- The two maps that announcements are accounted in only change with the visited entries.
theorem notify_visited (ann : FdAnnounce) (i : Sound none s) : ∃ s', s.notify o ann = .ok s' ∧
    s'.used ann.origin = ((s.visited ann).foldl (notifyHash o ann.origin) s).used ann.origin := by
  unfold notify visited
  split
  case isTrue => exact ⟨s, rfl, rfl⟩
  case isFalse =>
    dsimp only
    split
    case isFalse => exact ⟨_, rfl, rfl⟩
    case isTrue =>
      have i' : Sound none ((s.considered ann).foldl (notifyHash o ann.origin) s) :=
        List.foldlRecOn _ _ i fun _ i _ _ => notifyHash_sound i
      obtain ⟨s', he, _, hu⟩ := scheduleFetches_rule (o := o) (w := some {ann.origin})
        (I := fun s' => s'.used ann.origin =
          ((s.considered ann).foldl (notifyHash o ann.origin) s).used ann.origin) i' rfl
        (fun _ _ _ _ _ hu r => by simpa only [used, r.waitslots, r.announces] using hu)
      exact ⟨s', he, hu⟩

theorem notifyHash_used {e : Hash × Option FdMetadata} :
    (s.notifyHash o p e).used p ≤ s.used p + 1 := by
  obtain ⟨h, md⟩ := e
  have ha := Tracker.len_track_le (p := p) (m := s.announces) (h := h) md
  have hw := Tracker.len_track_le (p := p) (m := s.waitslots) (h := h) md
  unfold notifyHash
  dsimp only
  split
  case h_1 => simp only [used]; omega
  case h_2 =>
    split
    case h_1 => simp only [used]; omega
    case h_2 =>
      split
      case h_2 => simp only [used]; omega
      case h_1 =>
        split
        case isTrue  => omega
        case isFalse => simp only [used]; omega

theorem foldl_notifyHash_used (es : List (Hash × Option FdMetadata)) :
    (es.foldl (notifyHash o p) s).used p ≤ s.used p + es.length := by
  induction es generalizing s
  case nil => exact Nat.le_refl _
  case cons e es hi =>
    have := hi (s := s.notifyHash o p e)
    have := notifyHash_used (s := s) (o := o) (p := p) (e := e)
    simp only [foldl_cons, length_cons]
    omega

-- An announcement keeps the cap of a peer, since only as many entries are visited as there is room
-- for.
structure Capped (s : State) (ann : FdAnnounce) (s' : State) : Prop where
  cap : s.used ann.origin ≤ maxFdAnnounces → s'.used ann.origin ≤ maxFdAnnounces
  fit : s.used ann.origin + ann.hashes.length > maxFdAnnounces →
    s.visited ann = (ann.hashes.zip ann.metas).take (maxFdAnnounces - s.used ann.origin)

def Fits (s : State) (ann : FdAnnounce) : Prop :=
  s.used ann.origin ≥ maxFdAnnounces ∨
  s.used ann.origin + ann.hashes.length ≤ maxFdAnnounces ∨
  ann.hashes.length = 2 * (maxFdAnnounces - s.used ann.origin)

theorem entries_length : (ann.hashes.zip ann.metas).length = ann.hashes.length := by
  simp [ann.len_eq]

theorem visited_length_of_fits (hf : s.Fits ann) (hu : s.used ann.origin ≤ maxFdAnnounces) :
    s.used ann.origin + (s.visited ann).length ≤ maxFdAnnounces := by
  have := ann.len_eq
  unfold visited considered
  unfold Fits at hf
  dsimp only
  split
  case isTrue => simpa using hu
  case isFalse =>
    split <;> simp only [length_take, length_zip] <;> omega

theorem visited_of_fits (hf : s.Fits ann)
    (hw : s.used ann.origin + ann.hashes.length > maxFdAnnounces) :
    s.visited ann = (ann.hashes.zip ann.metas).take (maxFdAnnounces - s.used ann.origin) := by
  unfold visited considered
  unfold Fits at hf
  dsimp only
  split
  case isTrue hu  => rw [Nat.sub_eq_zero_of_le hu, take_zero]
  case isFalse hu =>
    have he : s.used ann.origin + ann.hashes.length - maxFdAnnounces =
        maxFdAnnounces - s.used ann.origin := by omega
    rw [he]

theorem fits_of_visited (hv : s.used ann.origin + ann.hashes.length > maxFdAnnounces →
    s.visited ann = (ann.hashes.zip ann.metas).take (maxFdAnnounces - s.used ann.origin)) :
    s.Fits ann := by
  unfold Fits
  by_contra hn
  simp only [not_or, not_le, ge_iff_le] at hn
  obtain ⟨hu, hw, hl⟩ := hn
  have hv := congrArg List.length (hv hw)
  unfold visited considered at hv
  rw [if_neg (Nat.not_le.mpr hu)] at hv
  dsimp only at hv
  rw [if_pos hw, length_take, length_take, entries_length] at hv
  omega

end State

theorem capped_iff_fits (s : State) (o : Oracle) (ann : FdAnnounce)
    (r : machine.Reachable anyStep s) :
    ∃ s', machine.step s (o, .notify ann) = .ok s' ∧ (s.Capped ann s' ↔ s.Fits ann) := by
  obtain ⟨s', he, hu⟩ := State.notify_visited (o := o) ann (State.reachable_sound r)
  refine ⟨s', he, fun hc => State.fits_of_visited hc.fit, fun hf => ⟨?_, State.visited_of_fits hf⟩⟩
  intro hm
  calc
    s'.used ann.origin
      = ((s.visited ann).foldl (State.notifyHash o ann.origin) s).used ann.origin := hu
    _ ≤ s.used ann.origin + (s.visited ann).length := State.foldl_notifyHash_used _
    _ ≤ maxFdAnnounces := State.visited_length_of_fits hf hm

-- Twice as many announcements as there is room for after one of them.
def doubling : FdAnnounce where
  origin := "p"
  hashes := (List.range (2 * (maxFdAnnounces - 1))).map fun n =>
    bytesToHash [UInt8.ofNat (n / 256), UInt8.ofNat n]
  metas := List.replicate (2 * (maxFdAnnounces - 1)) none
  len_eq := by simp

theorem capped_doubling : ∃ s s',
    machine.step machine.init (early, .notify (announceFixed "p")) = .ok s ∧ s.used "p" = 1 ∧
    machine.step s (early, .notify doubling) = .ok s' ∧ s'.used "p" ≤ maxFdAnnounces ∧
    s.visited doubling = (doubling.hashes.zip doubling.metas).take (maxFdAnnounces - 1) := by
  obtain ⟨s, hs, hu⟩ : ∃ s, machine.step machine.init (early, .notify (announceFixed "p")) = .ok s ∧
      s.used "p" = 1 := ⟨_, rfl, by decide⟩
  have ho : s.used doubling.origin = 1 := hu
  have hl : doubling.hashes.length = 2 * (maxFdAnnounces - 1) := by simp [doubling]
  obtain ⟨s', he, hc⟩ := capped_iff_fits s early doubling (.step .init trivial hs)
  obtain ⟨hm, hv⟩ := hc.mpr <| .inr <| .inr <| by rw [hl, ho]
  rw [ho, hl] at hv
  rw [ho] at hm
  exact ⟨s, s', hs, hu, he, hm (by decide), hv (by decide)⟩

-- One announcement more than fits, after which only a single one of them is visited.
def overflowing : FdAnnounce where
  origin := "p"
  hashes := List.replicate (maxFdAnnounces + 1) fixedHash
  metas := List.replicate (maxFdAnnounces + 1) none
  len_eq := by simp

theorem not_capped_overflowing : ¬∀ s o ann s', machine.Reachable anyStep s →
    machine.step s (o, .notify ann) = .ok s' → s.Capped ann s' := by
  intro h
  obtain ⟨s', he, _⟩ := State.notify_visited (s := machine.init) (o := early) overflowing .init
  have hf := State.fits_of_visited (h machine.init early overflowing s' .init he).fit
  have hu : machine.init.used overflowing.origin = 0 := by decide
  have hl : overflowing.hashes.length = maxFdAnnounces + 1 := List.length_replicate
  simp only [State.Fits, hu, hl, maxFdAnnounces] at hf
  omega

end Fetcher

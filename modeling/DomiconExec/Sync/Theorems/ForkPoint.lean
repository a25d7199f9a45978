import DomiconExec.Sync.Reorg

namespace Sync

variable {s : Sources} {g : Nat} {block latest : EthBlock} {ancestors : List EthBlock}

-- The underlying chain has a block with the same hash at the same height.
def Canonical (s : Sources) (block : EthBlock) : Prop :=
  ∃ b, s.blockByNumber block.number = some b ∧ b.hash = block.hash

-- Both questions to the underlying chain are answered from the same list of blocks.
structure Sources.Consistent (s : Sources) : Prop where
  number : ∀ n b, s.blockByNumber n = some b → b.number = n
  hash : ∀ h b, s.blockByHash h = some b ↔ b.hash = h ∧ s.blockByNumber b.number = some b

-- The block and its ancestors, from the parent on, are stored, down to the canonical genesis block.
inductive Stored (s : Sources) (g : Nat) : EthBlock → List EthBlock → Prop
  | genesis {block : EthBlock} :
    block.number = g → s.getBlockByHash block.hash = some block → Canonical s block →
    Stored s g block []
  | child {block parent : EthBlock} {ancestors : List EthBlock} :
    block.number = parent.number + 1 → s.getBlockByHash block.hash = some block →
    block.parentHash = parent.hash → Stored s g parent ancestors →
    Stored s g block (parent :: ancestors)

namespace Stored

theorem le_number (h : Stored s g block ancestors) : g ≤ block.number := by
  induction h
  case genesis hg _ _  => omega
  case child hn _ _ hi => omega

theorem getBlockByHash (h : Stored s g block ancestors) :
    s.getBlockByHash block.hash = some block := by
  match h with
  | .genesis _ hs _ => exact hs
  | .child _ hs _ _ => exact hs

-- Only the last block of the list has the number of the genesis block.
theorem canonical_of_number (h : Stored s g block ancestors) (hn : block.number = g) :
    Canonical s block := by
  match h with
  | .genesis _ _ hc => exact hc
  | .child hp _ _ h =>
    have := h.le_number
    omega

theorem checkReorg_ne_outOfFuel {fuel : Nat} (h : Stored s g block ancestors)
    (hf : ancestors.length ≤ fuel) : checkReorg s g (fuel + 1) block ≠ .error .outOfFuel := by
  induction h generalizing fuel
  case genesis hc =>
    have ⟨b, hb, he⟩ := hc
    simp [checkReorg, hb, he]
  case child block parent ancestors _ _ hp h hi =>
    have ⟨fuel', he⟩ : ∃ n, fuel = n + 1 := Nat.exists_eq_succ_of_ne_zero (by grind)
    rw [checkReorg, hp, h.getBlockByHash]
    split_ifs
    case pos => simp
    case neg =>
      split
      case h_1 => simp
      case h_2 =>
        split_ifs
        case pos => simp
        case neg =>
          split
          case h_1 => simp
          case h_2 =>
            dsimp only
            split_ifs
            case pos => simp
            case neg =>
              split
              case h_1 stop hr =>
                rw [he] at hr
                exact fun h => hi (by simpa [he] using hf) (hr.trans h)
              case h_2 => simp

end Stored

-- The search returns the block if it is canonical, and otherwise its highest canonical ancestor.
def Finds (s : Sources) (latest : EthBlock) (ancestors : List EthBlock)
    (r : Except Stop (Bool × EthBlock)) : Prop :=
  (Canonical s latest → r = .ok (false, latest)) ∧
  (¬Canonical s latest → ∃ b ∈ ancestors, r = .ok (true, b) ∧ Canonical s b ∧
    ∀ b' ∈ ancestors, Canonical s b' → b'.number ≤ b.number)

-- The result of a search that starts at an orphaned block. It is never an ancestor of this block.
theorem Stored.checkReorg_orphan {fuel : Nat} {b : EthBlock} (hs : s.Consistent)
    (h : Stored s g latest ancestors) (hc : ¬Canonical s latest)
    (hr : checkReorg s g fuel latest = .ok (true, b)) : b = latest := by
  match h with
  | .genesis _ _ h       => exact absurd h hc
  | .child _ _ hp parent =>
    cases fuel
    case zero => contradiction
    case succ fuel =>
      rw [checkReorg, hp, parent.getBlockByHash] at hr
      -- A parent with the number of the genesis block is canonical and is found by its hash.
      split_ifs at hr
      case pos => simp at hr
      case neg =>
        split at hr
        case h_1 => contradiction
        case h_2 =>
          split_ifs at hr
          case pos => simp at hr
          case neg =>
            split at hr
            case h_1 => exact (congrArg Prod.snd (Except.ok.inj hr)).symm
            case h_2 hh =>
              dsimp only at hr
              split_ifs at hr
              case pos hg =>
                have ⟨b', hb, he⟩ := parent.canonical_of_number hg
                have := (hs.hash _ b').mpr ⟨he, (hs.number _ _ hb).symm ▸ hb⟩
                cases hh.symm.trans this
              case neg =>
                split at hr
                case h_1 => contradiction
                case h_2 => exact (congrArg Prod.snd (Except.ok.inj hr)).symm

theorem checkReorg_canonical {fuel : Nat} (h : Canonical s latest) :
    checkReorg s g (fuel + 1) latest = .ok (false, latest) := by
  have ⟨b, hb, he⟩ := h
  simp [checkReorg, hb, he]

-- The search always ends, but it finds the fork point only if there is no fork.
theorem checkReorg_finds_iff (s : Sources) (g : Nat) (latest : EthBlock) (ancestors : List EthBlock)
    (hs : s.Consistent) (h : Stored s g latest ancestors) (fuel : Nat)
    (hf : ancestors.length < fuel) :
    checkReorg s g fuel latest ≠ .error .outOfFuel ∧
      (Finds s latest ancestors (checkReorg s g fuel latest) ↔ Canonical s latest) := by
  have ⟨fuel, hf'⟩ : ∃ n, fuel = n + 1 := Nat.exists_eq_succ_of_ne_zero (by omega)
  subst hf'
  refine ⟨h.checkReorg_ne_outOfFuel (by omega), ?_, ?_⟩
  case refine_1 =>
    intro hr
    by_contra hc
    have ⟨b, _, hb, hcb, _⟩ := hr.right hc
    exact hc <| h.checkReorg_orphan hs hc hb ▸ hcb
  case refine_2 => exact fun hc => ⟨fun _ => checkReorg_canonical hc, fun hn => absurd hc hn⟩

-- Both sources answer from a list.
def Sources.ofLists (l1 stored : List EthBlock) : Sources where
  blockByNumber n := l1.find? (·.number = n)
  blockByHash h := l1.find? (·.hash = h)
  getBlockByHash h := stored.find? (·.hash = h)

theorem find?_of_nodup {α : Type} [DecidableEq α] {f : EthBlock → α} {l : List EthBlock}
    (h : (l.map f).Nodup) (hb : block ∈ l) : l.find? (f · = f block) = some block := by
  induction l
  case nil => contradiction
  case cons b l hi =>
    have ⟨hn, h⟩ := List.nodup_cons.mp h
    cases List.mem_cons.mp hb
    case inl he => simp [he]
    case inr hm =>
      have hne : f b ≠ f block := fun he => hn <| he ▸ List.mem_map_of_mem hm
      simpa [hne] using hi h hm

theorem Sources.ofLists_consistent {l1 stored : List EthBlock}
    (hn : (l1.map EthBlock.number).Nodup) (hh : (l1.map EthBlock.hash).Nodup) :
    (ofLists l1 stored).Consistent where
  number n b h := by simpa using List.find?_some h
  hash h b := by
    constructor
    case mp =>
      intro hf
      exact ⟨by simpa using List.find?_some hf, find?_of_nodup hn (List.mem_of_find?_eq_some hf)⟩
    case mpr =>
      rintro ⟨rfl, hb⟩
      exact find?_of_nodup hh (List.mem_of_find?_eq_some hb)

def blockAt (number : Nat) (hash parentHash : UInt8) : EthBlock where
  number := number
  hash := .fill hash
  parentHash := .fill parentHash
  time := 0
  transactions := []
  encoded := []

def unforked : Sources :=
  .ofLists [blockAt 5 1 0, blockAt 6 2 1] [blockAt 5 1 0, blockAt 6 2 1]

def forked : Sources :=
  .ofLists [blockAt 5 1 0, blockAt 6 3 1] [blockAt 5 1 0, blockAt 6 2 1]

theorem checkReorg_unforked : Stored unforked 5 (blockAt 6 2 1) [blockAt 5 1 0] ∧
    Finds unforked (blockAt 6 2 1) [blockAt 5 1 0] (checkReorg unforked 5 2 (blockAt 6 2 1)) := by
  have h : Stored unforked 5 (blockAt 6 2 1) [blockAt 5 1 0] :=
    .child rfl rfl rfl <| .genesis rfl rfl ⟨_, rfl, rfl⟩
  have hs : unforked.Consistent := Sources.ofLists_consistent (by decide) (by decide)
  have hf := checkReorg_finds_iff unforked 5 (blockAt 6 2 1) [blockAt 5 1 0] hs h 2 (by decide)
  exact ⟨h, hf.right.mpr ⟨_, rfl, rfl⟩⟩

-- The orphaned block is taken for the fork point.
theorem not_finds_forked :
    ¬∀ (s : Sources) (g : Nat) (latest : EthBlock) (ancestors : List EthBlock), s.Consistent →
      Stored s g latest ancestors → ∃ fuel, Finds s latest ancestors (checkReorg s g fuel latest) := by
  intro h
  have hs : forked.Consistent := Sources.ofLists_consistent (by decide) (by decide)
  have hl : Stored forked 5 (blockAt 6 2 1) [blockAt 5 1 0] :=
    .child rfl rfl rfl <| .genesis rfl rfl ⟨_, rfl, rfl⟩
  have hc : ¬Canonical forked (blockAt 6 2 1) := by
    rintro ⟨b, hb, he⟩
    have hb : blockAt 6 3 1 = b := Option.some.inj hb
    exact absurd (hb ▸ he) (by decide)
  have ⟨fuel, hf⟩ := h forked 5 (blockAt 6 2 1) [blockAt 5 1 0] hs hl
  have ⟨b, _, hr, hcb, _⟩ := hf.right hc
  exact hc <| hl.checkReorg_orphan hs hc hr ▸ hcb

end Sync

import Mathlib.Algebra.Group.Nat.Defs
import DomiconExec.Sync.Worker

namespace Sync

open List Worker

-- The first synchronization: the database is empty, no request fails, and the context is not
-- cancelled. The calls of `processBlocks` are kept.
structure Initial where
  pc : Worker.Pc
  forced : Bool
  calls : List (List (Option EthBlock))

namespace Initial

inductive Turn
  | force
  | expire
  | tick
  | answer
  | processBlocks
  | clear

-- The event of a turn, if the goroutine waits for it.
def Turn.event (block : UInt64 → EthBlock) : Worker.Pc → Turn → Option Worker.Event
  | .force _ _, .force => some .force
  | .chunk c, .expire => if c.timer = .set then some .expire else none
  | .chunk c, .tick =>
    match c.pc with
    | .select => if c.timer = .expired then some .tick else none
    | _       => none
  | .chunk c, .answer =>
    match c.pc with
    | .blockByNumber => some (.blockByNumber (.ok (some (block c.j))))
    | _              => none
  | .chunk c, .processBlocks =>
    match c.pc with
    | .processBlocks _ => some .processBlocks
    | _                => none
  | .clear _, .clear => some .clear
  | _, _ => none

def processed : Worker.Pc → Worker.Event → List (List (Option EthBlock))
  | .chunk c, .processBlocks => [c.blocks]
  | _, _                     => []

def machine (u : Setup) (block : UInt64 → EthBlock) (l1Num : UInt64) :
    Transition.System Initial Turn Unit where
  init := ⟨.force 0 l1Num, false, []⟩
  step s t :=
    match t.event block s.pc with
    | none   => .error ()
    | some e =>
      let (pc, forced) := doSync u false s.forced s.pc e
      .ok ⟨pc, forced, s.calls ++ processed s.pc e⟩

end Initial

open Initial Transition.System

variable {u : Setup} {block : UInt64 → EthBlock} {n : UInt64} {s s' : Initial} {c : Chunk}
variable {first i k : Nat} {calls : List (List (Option EthBlock))}

def answered (block : UInt64 → EthBlock) (i k : Nat) : List (Option EthBlock) :=
  (List.range' i k).map fun m => some (block (.ofNat m))

-- The blocks from the genesis block to the one before `n` are processed once, in order and in
-- chunks.
structure Covers (u : Setup) (block : UInt64 → EthBlock) (n : UInt64) : Prop where
  terminates : (Initial.machine u block n).Terminates
  returns : ∀ s, (Initial.machine u block n).Reachable anyStep s →
    (∀ t s', (Initial.machine u block n).step s t ≠ .ok s') → s.pc = .finished none
  complete : ∀ s result, (Initial.machine u block n).Reachable anyStep s → s.pc = .finished result →
    s.forced = false ∧ (∀ chunk ∈ s.calls, chunk.length ≤ chunkSize.toNat) ∧
      s.calls.flatten = answered block u.genesisBlockNumber.toNat
        (n.toNat - u.genesisBlockNumber.toNat)

theorem toNat_add_chunkSize (m : UInt64) :
    (m + chunkSize).toNat = (m.toNat + chunkSize.toNat) % 2^64 :=
  UInt64.toNat_add ..

theorem answered_concat : answered block i k ++ [some (block (.ofNat (i + k)))] =
    answered block i (k + 1) := by
  rw [answered, answered, range'_concat, map_append, Nat.one_mul]
  rfl

theorem answered_append (j : Nat) : answered block i j ++ answered block (i + j) k =
    answered block i (j + k) := by
  rw [answered, answered, answered, ← map_append, range'_append_1]

-- The end of the chunk does not wrap around.
def Straight (i : UInt64) : Prop :=
  i.toNat + chunkSize.toNat < 2^64

-- The calls of `processBlocks` so far cover the blocks from `first` up to the one before `m`.
structure Done (block : UInt64 → EthBlock) (first m : Nat)
    (calls : List (List (Option EthBlock))) : Prop where
  sizes : ∀ chunk ∈ calls, chunk.length ≤ chunkSize.toNat
  flatten : calls.flatten = answered block first (m - first)

-- The loop is somewhere in a chunk.
structure Loading (block : UInt64 → EthBlock) (first : Nat) (n : UInt64)
    (calls : List (List (Option EthBlock))) (c : Chunk) : Prop where
  straight : Straight c.i
  first_le : first ≤ c.i.toNat
  done : Done block first c.i.toNat calls
  le_j : c.i.toNat ≤ c.j.toNat
  j_le : c.j.toNat ≤ c.i.toNat + chunkSize.toNat
  bound : c.j.toNat ≤ max first n.toNat
  blocks : c.blocks = answered block c.i.toNat (c.j.toNat - c.i.toNat)
  l1Num : c.l1Num = n

def AtPc (n : UInt64) (c : Chunk) : Prop :=
  match c.pc with
  | .select              => c.j.toNat < c.i.toNat + chunkSize.toNat ∧ c.j < n ∧ c.timer ≠ .consumed
  | .blockByNumber       => c.j.toNat < c.i.toNat + chunkSize.toNat ∧ c.j < n
  | .processBlocks true  => n ≤ c.j ∧ c.timer ≠ .consumed
  | .processBlocks false => c.j.toNat = c.i.toNat + chunkSize.toNat ∧ c.timer ≠ .consumed

theorem Loading.next (w : Loading block first n calls c) : Loading block first n calls c.next :=
  ⟨w.straight, w.first_le, w.done, w.le_j, w.j_le, w.bound, w.blocks, w.l1Num⟩

theorem Loading.atPc_next (w : Loading block first n calls c) (ht : c.timer ≠ .consumed) :
    AtPc n c.next := by
  have he : (c.i + chunkSize).toNat = c.i.toNat + chunkSize.toNat :=
    (toNat_add_chunkSize c.i).trans <| Nat.mod_eq_of_lt w.straight
  unfold AtPc Chunk.next
  rw [w.l1Num]
  by_cases hj : c.j < c.i + chunkSize
  case neg =>
    have hj := Nat.le_of_not_lt <| mt UInt64.lt_iff_toNat_lt.mpr hj
    simp only [if_neg ‹¬_›]
    exact ⟨Nat.le_antisymm w.j_le (he ▸ hj), ht⟩
  case pos =>
    by_cases hn : c.j ≥ n
    case pos =>
      simp only [if_pos hj, if_pos hn]
      exact ⟨hn, ht⟩
    case neg =>
      simp only [if_pos hj, if_neg hn]
      exact ⟨he ▸ UInt64.lt_iff_toNat_lt.mp hj, UInt64.not_le.mp hn, ht⟩

theorem done_nil : Done block first first [] where
  sizes := forall_mem_nil _
  flatten := by rw [Nat.sub_self]; rfl

theorem loading_start {m : UInt64} (timer : Timer) (hs : Straight m) (hf : first ≤ m.toNat)
    (hb : m.toNat ≤ max first n.toNat) (d : Done block first m.toNat calls) :
    Loading block first n calls { i := m, j := m, l1Num := n, blocks := [], timer, pc := .select } where
  straight := hs
  first_le := hf
  done := d
  le_j := Nat.le_refl _
  j_le := Nat.le_add_right ..
  bound := hb
  blocks := by rw [Nat.sub_self]; rfl
  l1Num := rfl

theorem Loading.toNat_succ (w : Loading block first n calls c)
    (hj : c.j.toNat < c.i.toNat + chunkSize.toNat) : (c.j + 1).toNat = c.j.toNat + 1 := by
  have hs := w.straight
  unfold Straight at hs
  rw [UInt64.toNat_add]
  exact Nat.mod_eq_of_lt <| by change _ + 1 < _; omega

theorem Loading.answer (w : Loading block first n calls c)
    (hj : c.j.toNat < c.i.toNat + chunkSize.toNat) (hn : c.j < n) (timer : Timer) :
    Loading block first n calls
      { c with j := c.j + 1, blocks := c.blocks ++ [some (block c.j)], timer } := by
  have hn := UInt64.lt_iff_toNat_lt.mp hn
  have he := w.toNat_succ hj
  have hl := w.le_j
  have hsub : c.i.toNat + (c.j.toNat - c.i.toNat) = c.j.toNat := Nat.add_sub_cancel' hl
  refine ⟨w.straight, w.first_le, w.done, ?_, ?_, ?_, ?_, w.l1Num⟩
  case refine_1 => exact he ▸ Nat.le_succ_of_le hl
  case refine_2 => exact he ▸ hj
  case refine_3 => exact he ▸ Nat.le_trans hn (Nat.le_max_right ..)
  case refine_4 =>
    rw [w.blocks, he, Nat.succ_sub hl, ← answered_concat, hsub, UInt64.ofNat_toNat]

-- After the call of `processBlocks` the chunk is covered.
theorem Loading.process (w : Loading block first n calls c) :
    Done block first c.j.toNat (calls ++ [c.blocks]) := by
  have hl := w.le_j
  have hf := w.first_le
  constructor
  case sizes =>
    intro chunk hm
    rcases mem_append.mp hm with hm | hm
    case inl => exact w.done.sizes chunk hm
    case inr =>
      have hj := w.j_le
      rw [mem_singleton.mp hm, w.blocks, answered, length_map, length_range']
      omega
  case flatten =>
    have he : first + (c.i.toNat - first) = c.i.toNat := Nat.add_sub_cancel' hf
    have hs : c.i.toNat - first + (c.j.toNat - c.i.toNat) = c.j.toNat - first := by omega
    rw [flatten_append, flatten_singleton, w.done.flatten, w.blocks, ← hs,
      ← answered_append, he]

section Run

variable {m : UInt64}

-- The first block that is requested. If the end of the first chunk wraps around, the chunk is
-- empty.
def firstNum (startNum : UInt64) : Nat :=
  if startNum.toNat + chunkSize.toNat < 2^64 then startNum.toNat else (startNum + chunkSize).toNat

inductive Covering (block : UInt64 → EthBlock) (startNum n : UInt64) : Initial → Prop
  | force {forced : Bool} : Covering block startNum n ⟨.force 0 n, forced, []⟩
  | wrapped {timer : Timer} : ¬Straight startNum → timer ≠ .consumed → Covering block startNum n
    ⟨.chunk ⟨startNum, startNum, n, [], timer, .processBlocks false⟩, true, []⟩
  | chunk {c : Chunk} {calls : List (List (Option EthBlock))} :
    Loading block (firstNum startNum) n calls c → AtPc n c →
      Covering block startNum n ⟨.chunk c, true, calls⟩
  | clear {forced : Bool} {calls : List (List (Option EthBlock))} :
    Done block (firstNum startNum) n.toNat calls → Covering block startNum n ⟨.clear none, forced, calls⟩
  | finished {calls : List (List (Option EthBlock))} :
    Done block (firstNum startNum) n.toNat calls →
      Covering block startNum n ⟨.finished none, false, calls⟩

def rank : Chunk.Pc → Nat
  | .processBlocks true  => 2
  | .blockByNumber       => 4
  | .select              => 6
  | .processBlocks false => 8

def Timer.rank : Timer → Nat
  | .set => 1
  | _    => 0

-- A bound on the number of turns that are left.
def turnsLeft (n : Nat) : Worker.Pc → Nat
  | .force _ _ => 10 * n + 40
  | .chunk c   =>
    if c.i.toNat + chunkSize.toNat < 2^64 then
      10 * (n - c.j.toNat) + Sync.rank c.pc + c.timer.rank
    else
      10 * n + 30 + c.timer.rank
  | .clear _   => 1
  | _          => 0

variable {t : Turn}

theorem turnsLeft_chunk (hs : Straight c.i) (m : Nat) :
    turnsLeft m (.chunk c) = 10 * (m - c.j.toNat) + Sync.rank c.pc + c.timer.rank :=
  if_pos hs

theorem turnsLeft_wrapped {l1Num : UInt64} {timer : Timer} (hs : ¬Straight m) (k : Nat) :
    turnsLeft k (.chunk ⟨m, m, l1Num, [], timer, .processBlocks false⟩) =
      10 * k + 30 + timer.rank :=
  if_neg hs

theorem turnsLeft_next_le (hs : Straight c.i) (m : Nat) :
    turnsLeft m (.chunk c.next) ≤ 10 * (m - c.j.toNat) + 8 + c.timer.rank := by
  rw [turnsLeft_chunk (c := c.next) hs]
  refine Nat.add_le_add_right (Nat.add_le_add_left ?_ _) _
  cases c.next.pc
  case processBlocks shouldBreak => cases shouldBreak <;> decide
  all_goals decide

theorem turnsLeft_start_le {l1Num : UInt64} {timer : Timer} (hs : Straight m) (k : Nat) :
    turnsLeft k (.chunk (.start m l1Num timer)) ≤ 10 * (k - m.toNat) + 6 + timer.rank := by
  have hm : m < m + chunkSize := by
    rw [UInt64.lt_iff_toNat_lt, toNat_add_chunkSize, Nat.mod_eq_of_lt hs]
    exact Nat.lt_add_of_pos_right (by decide)
  rw [turnsLeft_chunk (c := .start m l1Num timer) hs]
  refine Nat.add_le_add_right (Nat.add_le_add_left ?_ _) _
  simp only [Chunk.start, Chunk.next, if_pos hm]
  split <;> decide

theorem AtPc.expire (a : AtPc n c) (ht : c.timer = .set) :
    AtPc n { c with timer := c.timer.expire } := by
  have he : c.timer.expire ≠ .consumed := by rw [ht]; decide
  unfold AtPc at *
  split at a <;> simp_all

theorem Loading.expire (w : Loading block first n calls c) :
    Loading block first n calls { c with timer := c.timer.expire } :=
  ⟨w.straight, w.first_le, w.done, w.le_j, w.j_le, w.bound, w.blocks, w.l1Num⟩

theorem Loading.consume (w : Loading block first n calls c) :
    Loading block first n calls { c with timer := .consumed, pc := .blockByNumber } :=
  ⟨w.straight, w.first_le, w.done, w.le_j, w.j_le, w.bound, w.blocks, w.l1Num⟩

theorem Loading.done_of_le (w : Loading block first n calls c) (hn : n ≤ c.j) :
    Done block first n.toNat (calls ++ [c.blocks]) := by
  have d := w.process
  have hb := w.bound
  have hl := w.le_j
  have hf := w.first_le
  have hn := UInt64.le_iff_toNat_le.mp hn
  have he : c.j.toNat - first = n.toNat - first := by omega
  exact ⟨d.sizes, he ▸ d.flatten⟩

-- A chunk that is full is followed by another one, whose end does not wrap around.
theorem Loading.following (w : Loading block first n calls c) (hn : n.toNat + chunkSize.toNat < 2^64)
    (hj : c.j.toNat = c.i.toNat + chunkSize.toNat) (timer : Timer) :
    Loading block first n (calls ++ [c.blocks])
      ⟨c.i + chunkSize, c.i + chunkSize, n, [], timer, .select⟩ := by
  have he : (c.i + chunkSize).toNat = c.j.toNat :=
    (toNat_add_chunkSize c.i).trans <| (Nat.mod_eq_of_lt w.straight).trans hj.symm
  have hb := w.bound
  have hf := w.first_le
  have hc : chunkSize.toNat = 10 := rfl
  have hle : c.j.toNat ≤ n.toNat := by omega
  apply loading_start
  case hs => exact Nat.lt_of_le_of_lt (Nat.add_le_add_right (he ▸ hle) _) hn
  case hf => exact he ▸ Nat.le_trans hf w.le_j
  case hb => exact he ▸ hb
  case d  => exact he ▸ w.process

theorem Loading.turn (w : Loading block (firstNum u.genesisBlockNumber) n calls c) (a : AtPc n c)
    (hn : n.toNat + chunkSize.toNat < 2^64)
    (hs : (Initial.machine u block n).step ⟨.chunk c, true, calls⟩ t = .ok s') :
    Covering block u.genesisBlockNumber n s' ∧
      turnsLeft n.toNat s'.pc < turnsLeft n.toNat (.chunk c) := by
  rw [turnsLeft_chunk w.straight]
  simp only [Initial.machine] at hs
  cases t
  case force => cases hs
  case clear => cases hs
  case expire =>
    by_cases ht : c.timer = .set
    case neg =>
      simp only [Turn.event, if_neg ht] at hs
      cases hs
    case pos =>
      simp only [Turn.event, if_pos ht, doSync, chunkStep, processed, append_nil] at hs
      cases hs
      refine ⟨.chunk w.expire (a.expire ht), ?_⟩
      rw [turnsLeft_chunk (c := { c with timer := c.timer.expire }) w.straight, ht]
      exact Nat.lt_succ_self _
  case tick =>
    cases hp : c.pc <;> simp only [Turn.event, hp] at hs
    case blockByNumber => cases hs
    case processBlocks => cases hs
    case select =>
      by_cases ht : c.timer = .expired
      case neg =>
        simp only [if_neg ht] at hs
        cases hs
      case pos =>
        simp only [AtPc, hp] at a
        simp only [if_pos ht, doSync, chunkStep, hp, processed, append_nil] at hs
        cases hs
        refine ⟨.chunk w.consume ⟨a.left, a.right.left⟩, ?_⟩
        rw [turnsLeft_chunk (c := { c with timer := .consumed, pc := .blockByNumber }) w.straight, ht]
        simp only [Sync.rank, Timer.rank]
        omega
  case answer =>
    cases hp : c.pc <;> simp only [Turn.event, hp] at hs
    case select        => cases hs
    case processBlocks => cases hs
    case blockByNumber =>
      simp only [AtPc, hp] at a
      simp only [doSync, chunkStep, hp, processed, append_nil] at hs
      cases hs
      have w' := w.answer a.left a.right .set
      refine ⟨.chunk w'.next (w'.atPc_next Timer.noConfusion), ?_⟩
      refine Nat.lt_of_le_of_lt (turnsLeft_next_le w'.straight _) ?_
      -- One block less is left, which outweighs the turns that it takes.
      have hj := UInt64.lt_iff_toNat_lt.mp a.right
      have he := w.toNat_succ a.left
      simp only [he, Sync.rank, Timer.rank]
      omega
  case processBlocks =>
    cases hp : c.pc <;> simp only [Turn.event, hp] at hs
    case select        => cases hs
    case blockByNumber => cases hs
    case processBlocks shouldBreak =>
      simp only [doSync, chunkStep, hp, processed] at hs
      cases shouldBreak
      case true =>
        simp only [AtPc, hp] at a
        cases hs
        refine ⟨.clear (w.done_of_le a.left), ?_⟩
        change 1 < 10 * _ + 2 + _
        omega
      case false =>
        simp only [AtPc, hp] at a
        cases hs
        have w' := w.following hn a.left c.timer
        have he := (toNat_add_chunkSize c.i).trans <| Nat.mod_eq_of_lt w.straight
        refine ⟨.chunk (w.l1Num ▸ w'.next) (w.l1Num ▸ w'.atPc_next a.right), ?_⟩
        refine Nat.lt_of_le_of_lt (turnsLeft_start_le w'.straight n.toNat) ?_
        rw [he, ← a.left]
        exact Nat.add_lt_add_right (Nat.add_lt_add_left (by decide) _) _

theorem firstNum_of_straight (hs : Straight m) : firstNum m = m.toNat :=
  if_pos hs

theorem firstNum_of_not_straight (hs : ¬Straight m) :
    firstNum m = (m + chunkSize).toNat :=
  if_neg hs

theorem toNat_of_not_straight (hs : ¬Straight m) :
    (m + chunkSize).toNat + 2^64 = m.toNat + chunkSize.toNat := by
  have hm := m.toNat_lt
  have hc : chunkSize.toNat = 10 := rfl
  unfold Straight at hs
  rw [toNat_add_chunkSize]
  omega

theorem straight_of_not_straight (hs : ¬Straight m) : Straight (m + chunkSize) := by
  have he := toNat_of_not_straight hs
  have hm := m.toNat_lt
  have hc : chunkSize.toNat = 10 := rfl
  unfold Straight
  omega

theorem start_of_not_straight {timer : Timer} (hs : ¬Straight m) :
    Chunk.start m n timer = ⟨m, m, n, [], timer, .processBlocks false⟩ := by
  have hm : ¬m < m + chunkSize := by
    have he := toNat_of_not_straight hs
    have hc : chunkSize.toNat = 10 := rfl
    rw [UInt64.lt_iff_toNat_lt]
    omega
  simp only [Chunk.start, Chunk.next, if_neg hm]

theorem Covering.step (v : Covering block u.genesisBlockNumber n s)
    (hn : n.toNat + chunkSize.toNat < 2^64) (hs : (Initial.machine u block n).step s t = .ok s') :
    Covering block u.genesisBlockNumber n s' ∧
      turnsLeft n.toNat s'.pc < turnsLeft n.toNat s.pc := by
  cases v
  case chunk w a => exact w.turn a hn hs
  case force =>
    cases t <;> cases hs
    by_cases hs : Straight u.genesisBlockNumber
    case pos =>
      have hf := firstNum_of_straight hs
      have d : Done block (firstNum u.genesisBlockNumber) u.genesisBlockNumber.toNat [] := by
        rw [hf]
        exact done_nil
      have hb := Nat.le_trans (Nat.le_of_eq hf.symm) (Nat.le_max_left _ n.toNat)
      have w := loading_start .set hs (Nat.le_of_eq hf) hb d
      refine ⟨.chunk w.next (w.atPc_next Timer.noConfusion), ?_⟩
      refine Nat.lt_of_le_of_lt (turnsLeft_start_le hs _) ?_
      change 10 * (_ - _) + 6 + 1 < 10 * _ + 40
      omega
    case neg =>
      rw [start_of_not_straight hs]
      refine ⟨.wrapped hs Timer.noConfusion, ?_⟩
      change turnsLeft _ (.chunk ⟨_, _, _, _, _, _⟩) < 10 * n.toNat + 40
      rw [turnsLeft_wrapped hs]
      exact Nat.add_lt_add_left (show 30 + 1 < 40 by decide) _
  case wrapped timer hw ht =>
    rw [turnsLeft_wrapped hw]
    simp only [Initial.machine] at hs
    cases t
    case processBlocks =>
      cases hs
      have hf := firstNum_of_not_straight hw
      have d : Done block (firstNum u.genesisBlockNumber) (u.genesisBlockNumber + chunkSize).toNat
          [[]] := by
        rw [hf]
        exact ⟨forall_mem_singleton.mpr (Nat.zero_le _), done_nil.flatten⟩
      have hs := straight_of_not_straight hw
      have hb := Nat.le_trans (Nat.le_of_eq hf.symm) (Nat.le_max_left _ n.toNat)
      have w := loading_start timer hs (Nat.le_of_eq hf) hb d
      refine ⟨.chunk w.next (w.atPc_next ht), ?_⟩
      refine Nat.lt_of_le_of_lt (turnsLeft_start_le hs _) ?_
      change 10 * (_ - _) + 6 + timer.rank < 10 * n.toNat + 30 + timer.rank
      omega
    case expire =>
      by_cases ht : timer = .set
      case neg =>
        simp only [Turn.event, if_neg ht] at hs
        cases hs
      case pos =>
        cases ht
        cases hs
        refine ⟨.wrapped hw Timer.noConfusion, ?_⟩
        change turnsLeft _ (.chunk ⟨_, _, _, _, .expired, _⟩) < _
        rw [turnsLeft_wrapped hw]
        exact Nat.lt_succ_self _
    all_goals cases hs
  case clear d =>
    cases t <;> cases hs
    exact ⟨.finished ((append_nil _).symm ▸ d), Nat.one_pos⟩
  case finished => cases t <;> cases hs

theorem Covering.reachable (hn : n.toNat + chunkSize.toNat < 2^64)
    (r : (Initial.machine u block n).Reachable anyStep s) : Covering block u.genesisBlockNumber n s := by
  refine r.invariant .force ?_
  intro s t s' v _ hs
  exact (v.step hn hs).left

theorem terminates_initial (hn : n.toNat + chunkSize.toNat < 2^64) :
    (Initial.machine u block n).Terminates := by
  refine terminates_of_reachable (fun s => turnsLeft n.toNat s.pc) ?_
  intro s t s' r hs
  exact ((Covering.reachable hn r).step hn hs).right

theorem Covering.returns (v : Covering block u.genesisBlockNumber n s)
    (hf : ∀ t s', (Initial.machine u block n).step s t ≠ .ok s') : s.pc = .finished none := by
  cases v
  case force    => exact absurd rfl (hf .force _)
  case wrapped  => exact absurd rfl (hf .processBlocks _)
  case clear    => exact absurd rfl (hf .clear _)
  case finished => rfl
  case chunk c calls w a =>
    unfold AtPc at a
    obtain ⟨i, j, l1Num, blocks, timer, pc⟩ := c
    cases pc
    case blockByNumber => exact absurd rfl (hf .answer _)
    case processBlocks => exact absurd rfl (hf .processBlocks _)
    case select =>
      cases timer
      case set      => exact absurd rfl (hf .expire _)
      case expired  => exact absurd rfl (hf .tick _)
      case consumed => exact absurd rfl a.right.right

theorem Covering.complete {result : Option GoError} (v : Covering block u.genesisBlockNumber n s)
    (hp : s.pc = .finished result) :
    s.forced = false ∧ Done block (firstNum u.genesisBlockNumber) n.toNat s.calls := by
  cases v <;> cases hp
  case finished d => exact ⟨rfl, d⟩

end Run

theorem covers_of_firstNum (hn : n.toNat + chunkSize.toNat < 2^64)
    (hf : answered block (firstNum u.genesisBlockNumber) (n.toNat - firstNum u.genesisBlockNumber) =
      answered block u.genesisBlockNumber.toNat (n.toNat - u.genesisBlockNumber.toNat)) :
    Covers u block n where
  terminates := terminates_initial hn
  returns _ r := (Covering.reachable hn r).returns
  complete s result r hp := by
    obtain ⟨hc, d⟩ := (Covering.reachable hn r).complete hp
    exact ⟨hc, d.sizes, d.flatten.trans hf⟩

-- A run comes to an end in any case, and its result tells which blocks were requested.
theorem Covers.answered_eq (v : Covers u block n) (hn : n.toNat + chunkSize.toNat < 2^64) :
    answered block (firstNum u.genesisBlockNumber) (n.toNat - firstNum u.genesisBlockNumber) =
      answered block u.genesisBlockNumber.toNat (n.toNat - u.genesisBlockNumber.toNat) := by
  obtain ⟨s, r, hf⟩ := v.terminates.exists_final
  have hp := v.returns s r hf
  obtain ⟨_, d⟩ := (Covering.reachable hn r).complete hp
  exact d.flatten.symm.trans (v.complete s none r hp).right.right

-- The first chunk does not wrap around, or there are no blocks at the start of the range.
def Regular (startNum n : UInt64) : Prop :=
  startNum.toNat + chunkSize.toNat < 2^64 ∨ n.toNat + 2^64 ≤ startNum.toNat + chunkSize.toNat

theorem Covers.regular (v : Covers u block n) (hn : n.toNat + chunkSize.toNat < 2^64) :
    Regular u.genesisBlockNumber n := by
  by_contra h
  obtain ⟨hs, hl⟩ := not_or.mp h
  have he := congrArg List.length <| v.answered_eq hn
  have hf := firstNum_of_not_straight hs
  have ht := toNat_of_not_straight hs
  have hm := u.genesisBlockNumber.toNat_lt
  have hc : chunkSize.toNat = 10 := rfl
  simp only [answered, length_map, length_range'] at he
  omega

theorem covers_iff_regular (u : Setup) (block : UInt64 → EthBlock) (n : UInt64)
    (hn : n.toNat + chunkSize.toNat < 2^64) :
    Covers u block n ↔ Regular u.genesisBlockNumber n := by
  refine ⟨fun v => v.regular hn, fun h => covers_of_firstNum hn ?_⟩
  by_cases hs : Straight u.genesisBlockNumber
  case pos => rw [firstNum_of_straight hs]
  case neg =>
    -- Both ranges are empty.
    have hl := h.resolve_left hs
    have hf := firstNum_of_not_straight hs
    have ht := toNat_of_not_straight hs
    have hm := u.genesisBlockNumber.toNat_lt
    have hc : chunkSize.toNat = 10 := rfl
    have h₁ : n.toNat - firstNum u.genesisBlockNumber = 0 := by omega
    have h₂ : n.toNat - u.genesisBlockNumber.toNat = 0 := by omega
    rw [h₁, h₂]
    rfl

-- A node for which the first block is the one with the number `startNum`.
def sampleSetup (startNum : UInt64) : Setup where
  chain := .ethereum
  genesisBlockNumber := startNum

def sampleBlock (num : UInt64) : EthBlock where
  number := num.toNat
  hash := .fill 0
  parentHash := .fill 0
  time := 0
  encoded := []
  transactions := []

theorem covers_sampleSetup : Covers (sampleSetup 5) sampleBlock 27 :=
  (covers_iff_regular (sampleSetup 5) sampleBlock 27 (by decide)).mpr (.inl (by decide))

-- The number of the genesis block is the greatest one, but the block with the number 9 is processed.
theorem not_covers_sampleSetup : ¬Covers (sampleSetup 18446744073709551615) sampleBlock 10 := by
  intro v
  rcases v.regular (by decide) with h | h
  case inl => exact absurd h (by decide)
  case inr => exact absurd h (by decide)

end Sync

import DomiconExec.Discover.Lookup
import DomiconExec.Discover.Theorems.Closest

namespace Discover

open List Table Enode Transition.System

variable {me : Hash} {s : Lookup} {n : Node} {l t : List Node} {r : NodesByDistance}

namespace Lookup

structure Sound (me : Hash) (s : Lookup) : Prop where
  -- No node is asked twice, and the local one is not asked at all.
  asked : s.asked.Nodup
  self : me ∈ s.asked
  -- The first query is answered by the table. There is room for every reply in the channel.
  flight : (s.running.length + s.replyCh.length : Int) = if s.queries = -1 then 0 else s.queries
  bound : s.queries ≤ alpha
  nearest : Nearest (distance s.result.target ·.id) bucketSize s.seen s.result.entries
  closed : s.cancelled → s.queries ≤ 0
  ended : s.pc = .ended → s.queries ≤ 0 ∧
    (s.cancelled = false → ∀ n ∈ s.result.entries, n.id ∈ s.asked)

-- The state after the nodes in `l` were considered.
structure Asking (me : Hash) (r : NodesByDistance) (l : List Node) (s : Lookup) : Prop
    extends Sound me s where
  pc : s.pc = .start
  cancelled : s.cancelled = false
  result : s.result = r
  nonneg : 0 ≤ s.queries
  all : s.queries < alpha → ∀ n ∈ l, n.id ∈ s.asked

theorem Asking.ask (a : Asking me r l s) : Asking me r (n :: l) (s.ask n) := by
  simp only [Lookup.ask, Bool.not_eq_true', contains_eq_mem, decide_eq_false_iff_not]
  split
  case isFalse hn =>
    refine { a with all := fun hl => forall_mem_cons.mpr ⟨?_, a.all hl⟩ }
    exact not_not.mp fun hm => hn ⟨hl, hm⟩
  case isTrue hn =>
    have hq := a.nonneg
    have hf := a.flight
    exact { a with
      asked := nodup_cons.mpr ⟨hn.right, a.asked⟩
      self := mem_cons_of_mem _ a.self
      flight := by simp only [length_cons]; omega
      bound := hn.left
      closed := by simp [a.cancelled]
      ended := by simp [a.pc]
      nonneg := Int.le_add_one hq
      all := fun _ => forall_mem_cons.mpr
        ⟨mem_cons_self, fun m hm => mem_cons_of_mem _ (a.all hn.left m hm)⟩
    }

theorem Asking.foldl (a : Asking me r l s) :
    Asking me r (t.reverse ++ l) (t.foldl .ask s) := by
  induction t generalizing l s
  case nil         => exact a
  case cons n t hi => simpa using hi a.ask

theorem Sound.startQueries (i : s.Sound me) (hp : s.pc = .start) (tab : Table) :
    (s.startQueries tab).Sound me := by
  have hf := i.flight
  unfold Lookup.startQueries
  split
  case isTrue hc => exact { i with ended := fun _ => ⟨i.closed hc, by simp [hc]⟩ }
  case isFalse hc =>
    split
    case isTrue hq =>
      simp only [hq, if_true] at hf
      exact { i with
        flight := by simp only [length_append, length_singleton]; omega
        bound := by simp [alpha]
        closed := fun h => absurd h hc
        ended := by simp
      }
    case isFalse hq =>
      have a : Asking me s.result [] s :=
        ⟨i, hp, Bool.eq_false_iff.mpr hc, rfl, by omega, by simp⟩
      have a := a.foldl (t := s.result.entries)
      refine { a.toSound with ended := ?_ }
      dsimp only
      split
      case isTrue     => simp
      case isFalse hq =>
        refine fun _ => ⟨not_lt.mp hq, fun _ => ?_⟩
        rw [a.result]
        simpa using a.all ((not_lt.mp hq).trans_lt (by decide))

theorem Sound.see (h : s.Sound me ∧ s.pc = .start) : (s.see n).Sound me ∧ (s.see n).pc = .start := by
  unfold Lookup.see
  split
  case isTrue => exact h
  case isFalse hn =>
    obtain ⟨i, hp⟩ := h
    have hn : ∀ e ∈ s.seen, e.id ≠ n.id := by simpa using hn
    exact ⟨{ i with nearest := push_nearest i.nearest hn, ended := by simp [hp] }, hp⟩

theorem Sound.pop {nodes : List (Option Node)} {replyCh : List (List (Option Node))} {pc : Pc}
    (i : s.Sound me) (hr : s.replyCh = nodes :: replyCh) (hp : pc ≠ .ended) :
    { s with replyCh, queries := s.queries - 1, pc }.Sound me := by
  have hf := i.flight
  rw [hr, length_cons] at hf
  exact { i with
    flight := by dsimp only; omega
    bound := (Int.sub_le_self _ (by decide)).trans i.bound
    closed := fun hc => (Int.sub_le_self _ (by decide)).trans (i.closed hc)
    ended := fun h => absurd h hp
  }

theorem Sound.step (i : s.Sound me) (e : Event) : (s.step e).Sound me := by
  cases e <;> dsimp only [Lookup.step] <;> split
  case startQueries.isTrue tab hp => exact i.startQueries hp tab
  case reply.isTrue hj =>
    have hf := i.flight
    refine { i with flight := ?_ }
    simp only [length_eraseIdx_of_lt hj.left, length_append, length_singleton]
    omega
  case cancelCh.isTrue => exact { i with ended := by simp }
  case closed.isTrue h => exact { i with closed := fun _ => h.right, ended := by simp }
  case h_1 hp hr =>
    exact (List.foldlRecOn (motive := fun s => s.Sound me ∧ s.pc = .start) _ Lookup.see
      ⟨i.pop hr (by simp), rfl⟩ fun _ h _ _ => Sound.see h).left
  case h_2 hp hr =>
    split
    case isTrue  => exact i.pop hr (by simp [hp])
    case isFalse => exact i
  all_goals exact i

end Lookup

end Discover

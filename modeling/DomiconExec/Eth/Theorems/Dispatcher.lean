import DomiconExec.Primitives.Loop
import DomiconExec.Eth.Dispatcher

namespace Eth.Dispatcher

open List Transition.System

variable {reqs : List Request} {s s' : Dispatcher} {e : Event} {i k : Nat} {id : UInt64} {op : Op}
variable {log : List Op}

inductive Status
  | unsent
  | pending
  | answered
  | cancelled
deriving DecidableEq

-- The effect of an operation on the request `i` with the id. A cancellation before it has none.
def Status.next (i : Nat) (id : UInt64) : Status → Op → Status
  | .unsent, .sent j         => if j = i then .pending else .unsent
  | .pending, .cancelled id' => if id' = id then .cancelled else .pending
  | .pending, .accepted _ j  => if j = i then .answered else .pending
  | st, _                    => st

def status (log : List Op) (i : Nat) (id : UInt64) : Status :=
  log.foldl (Status.next i id) .unsent

@[simp]
theorem status_concat : status (log ++ [op]) i id = (status log i id).next i id op :=
  foldl_concat ..

theorem foldl_answered (log : List Op) : log.foldl (Status.next i id) .answered = .answered := by
  induction log
  case nil             => rfl
  case cons op log hi => exact hi

theorem status_answered {l : List Op} (h : status log i id = .answered) :
    status (log ++ l) i id = .answered := by
  rw [status, foldl_append]
  exact (congrArg (l.foldl _) h).trans (foldl_answered l)

def Op.accepts (i : Nat) : Op → Bool
  | .accepted _ j => j = i
  | _             => false

-- Responses are only accepted for pending requests.
def Guarded (log : List Op) (i : Nat) (id : UInt64) : Prop :=
  ∀ l₁ k l₂, log = l₁ ++ .accepted k i :: l₂ → status l₁ i id = .pending

theorem Guarded.of_concat (h : Guarded (log ++ [op]) i id) : Guarded log i id := by
  rintro l₁ k l₂ rfl
  exact h l₁ k (l₂ ++ [op]) (append_assoc ..)

theorem Guarded.countP_eq_zero (h : Guarded log i id) (hs : status log i id = .pending) :
    log.countP (Op.accepts i) = 0 := by
  refine List.countP_eq_zero.mpr fun op hm ho => ?_
  obtain ⟨l₁, l₂, rfl⟩ := append_of_mem hm
  cases op <;> simp only [Op.accepts, Bool.false_eq_true, decide_eq_true_eq] at ho
  case accepted k j =>
    cases ho
    have ha : status (l₁ ++ [.accepted k i]) i id = .answered := by
      rw [status_concat, h l₁ k l₂ rfl]
      exact if_pos rfl
    rw [append_cons, status_answered ha] at hs
    cases hs

theorem Guarded.countP_accepts (h : Guarded log i id) : log.countP (Op.accepts i) ≤ 1 := by
  induction log using List.reverseRecOn
  case nil => exact Nat.zero_le 1
  case append_singleton log op hi =>
    rw [countP_append]
    by_cases ho : Op.accepts i op
    case neg =>
      rw [countP_singleton, if_neg ho]
      exact hi h.of_concat
    case pos =>
      cases op <;> simp only [Op.accepts, Bool.false_eq_true, decide_eq_true_eq] at ho
      case accepted k j =>
        cases ho
        rw [h.of_concat.countP_eq_zero (h log k [] rfl), Nat.zero_add]
        exact List.countP_le_length

theorem Guarded.concat (h : Guarded log i id)
    (ho : ∀ k, op = .accepted k i → status log i id = .pending) : Guarded (log ++ [op]) i id := by
  intro l₁ k l₂ hl
  rcases eq_nil_or_concat l₂ with rfl | ⟨l₂, op', rfl⟩
  case inl =>
    obtain ⟨rfl, he⟩ := append_inj' hl rfl
    exact ho k (singleton_inj.mp he)
  case inr =>
    rw [concat_eq_append, ← cons_append, ← append_assoc] at hl
    exact h l₁ k l₂ (append_inj' hl rfl).left

inductive Stage
  | open
  | waiting
  | succeeded
deriving DecidableEq

def Request.stage : Request.Pc → Stage
  | .waiting       => .waiting
  | .returned none => .succeeded
  | _              => .open

def Response.stage : Response.Pc → Stage
  | .offering | .rejected | .disconnected => .open
  | .waiting                              => .waiting
  | _                                     => .succeeded

structure View where
  requests : List (Request × Stage)
  responses : List (UInt64 × UInt64 × Option Nat × Stage)
  pending : GoMap UInt64 Nat
  pc : Pc
  log : List Op

def view (s : Dispatcher) : View where
  requests := s.requests.map fun call => (call.req, Request.stage call.pc)
  responses := s.responses.map fun res => (res.id, res.code, res.req, Response.stage res.pc)
  pending := s.pending
  pc := s.pc
  log := s.log

inductive View.Turn (v : View) : View → Prop
  | aside : Turn v v
  | respond (id code : UInt64) :
    Turn v { v with responses := v.responses ++ [(id, code, none, .open)] }
  | receiveRequest {i : Nat} {req : Request} : v.pc = .select → v.requests[i]? = some (req, .open) →
    Turn v { v with requests := v.requests.set i (req, .waiting), pc := .sending i }
  | send {i : Nat} (err : Option GoError) : v.pc = .sending i →
    Turn v { v with pc := .failRequest i err }
  | sent {i : Nat} {req : Request} : v.pc = .failRequest i none →
    v.requests[i]? = some (req, .waiting) → Turn v { v with
      requests := v.requests.set i (req, .succeeded), pc := .track i none, log := v.log ++ [.sent i] }
  | unsent {i : Nat} {req : Request} {err : GoError} : v.pc = .failRequest i (some err) →
    v.requests[i]? = some (req, .waiting) → Turn v { v with
      requests := v.requests.set i (req, .open), pc := .track i (some err) }
  | track {i : Nat} {req : Request} {st : Stage} : v.pc = .track i none →
    v.requests[i]? = some (req, st) →
      Turn v { v with pending := v.pending.set req.id i, pc := .select }
  | skip {i : Nat} {err : GoError} : v.pc = .track i (some err) → Turn v { v with pc := .select }
  | cancel {i : Nat} {req : Request} {st : Stage} (c : Nat) : v.pc = .select →
    v.requests[i]? = some (req, st) → Turn v { v with
      pending := v.pending.del req.id, pc := .failCancel c, log := v.log ++ [.cancelled req.id] }
  | cancelled {c : Nat} : v.pc = .failCancel c → Turn v { v with pc := .select }
  | receiveResponse {k : Nat} {id code : UInt64} {req : Option Nat} (err : Option GoError) :
    v.pc = .select → v.responses[k]? = some (id, code, req, .open) →
    (err = none → ∃ i req st, v.pending.get id = some i ∧ v.requests[i]? = some (req, st) ∧
      req.want = code) → Turn v { v with
        responses := v.responses.set k (id, code, v.pending.get id, .waiting)
        pc := .failResponse k err }
  | reject {k : Nat} {id code : UInt64} {req : Option Nat} {err : GoError} :
    v.pc = .failResponse k (some err) → v.responses[k]? = some (id, code, req, .waiting) →
      Turn v { v with responses := v.responses.set k (id, code, req, .open), pc := .select }
  | accept {k i : Nat} {id code : UInt64} : v.pc = .failResponse k none →
    v.responses[k]? = some (id, code, some i, .waiting) → Turn v { v with
      responses := v.responses.set k (id, code, some i, .succeeded)
      pc := .untrack id
      log := v.log ++ [.accepted k i] }
  | untrack {id : UInt64} : v.pc = .untrack id →
    Turn v { v with pending := v.pending.del id, pc := .select }
  | quit : v.pc = .select → Turn v { v with pc := .returned }

theorem map_set_of_eq {α β : Type} {f : α → β} {l : List α} {a b : α} (h : l[i]? = some a)
    (hf : f b = f a) : (l.set i b).map f = l.map f := by
  obtain ⟨hl, rfl⟩ := List.getElem?_eq_some_iff.mp h
  rw [map_set, hf, ← map_set, set_getElem_self]

theorem turn_setRequest {call : Request.Call} {pc : Request.Pc} (h : s.requests[i]? = some call)
    (hs : Request.stage pc = Request.stage call.pc) :
    s.view.Turn (s.setRequest i call pc).view := by
  have hm := map_set_of_eq (f := fun call => (call.req, Request.stage call.pc))
    (b := { call with pc }) h (by rw [hs])
  simp only [view, setRequest, hm]
  exact .aside

theorem turn_setResponse {res : Response} {pc : Response.Pc} (h : s.responses[k]? = some res)
    (hs : Response.stage pc = Response.stage res.pc) :
    s.view.Turn (s.setResponse k res pc).view := by
  have hm := map_set_of_eq
    (f := fun res : Response => (res.id, res.code, res.req, Response.stage res.pc))
    (b := { res with pc }) h (by rw [hs])
  simp only [view, setResponse, hm]
  exact .aside

theorem getElem?_view_requests {call : Request.Call} (h : s.requests[i]? = some call) :
    s.view.requests[i]? = some (call.req, Request.stage call.pc) := by
  rw [view, List.getElem?_map, h]
  rfl

theorem getElem?_view_responses {res : Response} (h : s.responses[k]? = some res) :
    s.view.responses[k]? = some (res.id, res.code, res.req, Response.stage res.pc) := by
  rw [view, List.getElem?_map, h]
  rfl

theorem turn_of_close (h : s.close i = .ok s') : s.view.Turn s'.view := by
  unfold close at h
  split at h <;> cases h
  exact .aside

theorem turn_of_closeCancel {c : Nat} {call : Close} (h : s.closeCancel c i call = .ok s') :
    s.view.Turn s'.view := by
  unfold closeCancel at h
  split at h
  case h_1 => cases h
  case h_2 r hr =>
    split at h <;> cases h
    have hm := map_set_of_eq (f := fun call => (call.req, Request.stage call.pc))
      (b := { r with cancelled := true }) hr rfl
    simp only [view, setClose, hm]
    exact .aside

theorem turn_of_receiveRequest (h : s.receiveRequest i = .ok s') : s.view.Turn s'.view := by
  unfold receiveRequest at h
  split at h <;> cases h
  case h_1 req cancelled hp hr =>
    have ht := View.Turn.receiveRequest (v := s.view) hp (getElem?_view_requests hr)
    simp only [view, setRequest, map_set] at ht ⊢
    exact ht

theorem turn_of_receiveCancel {c : Nat} (h : s.receiveCancel c = .ok s') :
    s.view.Turn s'.view := by
  unfold receiveCancel at h
  split at h
  case h_2 => cases h
  case h_1 hp hc =>
    split at h
    case h_1 => cases h
    case h_2 call hr =>
      cases h
      have hd : (if (s.pending.get call.req.id).isNone then s.pending else s.pending.del call.req.id) =
          s.pending.del call.req.id := by
        split
        case isFalse => rfl
        case isTrue hn =>
          exact (GoMap.del_of_not_mem <| GoMap.not_mem_of_get <| Option.isNone_iff_eq_none.mp hn).symm
      have ht := View.Turn.cancel (v := s.view) c hp (getElem?_view_requests hr)
      simp only [view, setClose, hd] at ht ⊢
      exact ht

theorem verdict_eq_none {req : Option Nat} {code : UInt64} (h : s.verdict req code = none) :
    ∃ i call, req = some i ∧ s.requests[i]? = some call ∧ call.req.want = code := by
  unfold verdict at h
  split at h
  case h_1 => cases h
  case h_2 call hc =>
    obtain ⟨i, hi, hr⟩ := Option.bind_eq_some_iff.mp hc
    split at h
    case isTrue     => cases h
    case isFalse hw => exact ⟨i, call, hi, hr, not_ne_iff.mp hw⟩

theorem turn_of_receiveResponse (h : s.receiveResponse k = .ok s') : s.view.Turn s'.view := by
  unfold receiveResponse at h
  split at h <;> cases h
  case h_1 id code req hp hr =>
    have hv : s.verdict (s.pending.get id) code = none → ∃ i req st, s.view.pending.get id = some i ∧
        s.view.requests[i]? = some (req, st) ∧ req.want = code := by
      intro h
      obtain ⟨i, call, hi, hc, hw⟩ := verdict_eq_none h
      exact ⟨i, _, _, hi, getElem?_view_requests hc, hw⟩
    have ht := View.Turn.receiveResponse (v := s.view) _ hp (getElem?_view_responses hr) hv
    simp only [view, setResponse, map_set] at ht ⊢
    exact ht

theorem turn_of_fail (h : s.fail = .ok s') : s.view.Turn s'.view := by
  unfold fail at h
  split at h
  case h_1 i err hp =>
    split at h <;> cases h
    case h_1 req cancelled hr =>
      have hr := getElem?_view_requests hr
      cases err
      case none =>
        have ht := View.Turn.sent (v := s.view) hp hr
        simp only [view, setRequest, map_set] at ht ⊢
        exact ht
      case some err =>
        have ht := View.Turn.unsent (v := s.view) hp hr
        simp only [view, setRequest, map_set] at ht ⊢
        exact ht
  case h_2 hp =>
    split at h <;> cases h
    exact .cancelled hp
  case h_3 k err hp =>
    split at h <;> cases h
    case h_1 hr =>
      have ht := View.Turn.reject (v := s.view) hp (getElem?_view_responses hr)
      simp only [view, setResponse, map_set] at ht ⊢
      exact ht
    case h_2 hr =>
      have ht := View.Turn.accept (v := s.view) hp (getElem?_view_responses hr)
      simp only [view, setResponse, map_set] at ht ⊢
      exact ht
  case h_4 => cases h

theorem turn_of_finish (h : s.finish = .ok s') : s.view.Turn s'.view := by
  unfold finish at h
  split at h
  case h_1 i hp =>
    split at h <;> cases h
    case h_2 call hr => exact .track hp (getElem?_view_requests hr)
  case h_2 hp =>
    cases h
    exact .skip hp
  case h_3 hp =>
    cases h
    exact .untrack hp
  case h_4 => cases h

theorem turn_of_step (h : s.step e = .ok s') : s.view.Turn s'.view := by
  cases e <;> simp only [step] at h
  case close           => exact turn_of_close h
  case receiveRequest  => exact turn_of_receiveRequest h
  case receiveCancel   => exact turn_of_receiveCancel h
  case receiveResponse => exact turn_of_receiveResponse h
  case fail            => exact turn_of_fail h
  case finish          => exact turn_of_finish h
  case term =>
    cases h
    exact .aside
  case dispatchRequest =>
    split at h <;> cases h
    case h_1 hr => exact turn_setRequest hr rfl
  case dispatchResponse id code =>
    cases h
    have ht := View.Turn.respond (v := s.view) id code
    simp only [view, map_append] at ht ⊢
    exact ht
  case send err =>
    split at h <;> cases h
    case h_1 hp => exact .send err hp
  case closeCancel =>
    split at h
    case h_1 => exact turn_of_closeCancel h
    case h_2 => cases h
  case check =>
    split at h <;> cases h
    case h_1 hr =>
      refine turn_setResponse hr ?_
      split <;> rfl
  case deliver =>
    split at h <;> cases h
    case h_1 hr => exact turn_setResponse hr rfl
  case discard =>
    split at h
    case h_2 => cases h
    case h_1 hr =>
      split at h <;> cases h
      exact turn_setResponse hr rfl
  case done =>
    split at h <;> cases h
    case h_1 hr => exact turn_setResponse hr rfl
  case quit =>
    split at h
    case h_2 => cases h
    case h_1 hp =>
      split at h <;> cases h
      exact .quit hp
  case abortRequest =>
    split at h <;> cases h
    case h_1 hr _ => exact turn_setRequest hr rfl
  case abortClose =>
    split at h <;> cases h
    exact .aside
  case abortResponse =>
    split at h <;> cases h
    case h_1 hr _ => exact turn_setResponse hr rfl

section Invariant

variable {v v' : View}

theorem index_unique {j : Nat} {a b : Request} (hd : (reqs.map Request.id).Nodup)
    (hi : reqs[i]? = some a) (hj : reqs[j]? = some b) (he : a.id = b.id) : i = j := by
  have hl : i < (reqs.map Request.id).length := by
    rw [length_map]
    exact (List.getElem?_eq_some_iff.mp hi).choose
  refine (List.getElem?_inj hl hd).mp ?_
  rw [List.getElem?_map, List.getElem?_map, hi, hj]
  exact congrArg some he

namespace View

def tracked (v : View) : GoMap UInt64 Nat :=
  match v.pc with
  | .track i none =>
    match v.requests[i]? with
    | some x => v.pending.set x.fst.id i
    | none   => v.pending
  | .untrack id => v.pending.del id
  | _           => v.pending

structure Valid (reqs : List Request) (v : View) : Prop where
  requests : v.requests.map Prod.fst = reqs
  unsent : ∀ {i req st}, v.requests[i]? = some (req, st) → st ≠ .succeeded →
    status v.log i req.id = .unsent
  tracked : ∀ {id i}, v.tracked.get id = some i ↔
    ∃ req, reqs[i]? = some req ∧ req.id = id ∧ status v.log i id = .pending
  answer : ∀ {k}, v.pc = .failResponse k none → ∃ id code i req,
    v.responses[k]? = some (id, code, some i, .waiting) ∧ v.pending.get id = some i ∧
      reqs[i]? = some req ∧ req.want = code
  guarded : ∀ {i req}, reqs[i]? = some req → Guarded v.log i req.id
  matched : ∀ {k i}, .accepted k i ∈ v.log → ∃ req, reqs[i]? = some req ∧
    v.responses[k]? = some (req.id, req.want, some i, .succeeded)
  accepted : ∀ {k id code req}, v.responses[k]? = some (id, code, req, .succeeded) →
    ∃ i, req = some i ∧ .accepted k i ∈ v.log

namespace Valid

variable (h : Valid reqs v)

include h in
theorem getElem?_reqs {req : Request} {st : Stage} (hi : v.requests[i]? = some (req, st)) :
    reqs[i]? = some req := by
  rw [← h.requests, List.getElem?_map, hi]
  rfl

-- A step that leaves the calls and the log alone, and that does not change what is pending.
include h in
theorem idle (hr : v'.requests = v.requests) (hs : v'.responses = v.responses)
    (hl : v'.log = v.log) (ht : v'.tracked = v.tracked) (hp : ∀ k, v'.pc ≠ .failResponse k none) :
    Valid reqs v' where
  requests := hr ▸ h.requests
  unsent := by rw [hr, hl]; exact h.unsent
  tracked := by rw [ht, hl]; exact h.tracked
  answer hk := absurd hk (hp _)
  guarded := hl ▸ h.guarded
  matched := by rw [hl, hs]; exact h.matched
  accepted := by rw [hl, hs]; exact h.accepted

-- The request `i` goes to another stage without having been sent.
include h in
theorem setRequest {req : Request} {st st' : Stage} {pc : Pc} (hi : v.requests[i]? = some (req, st))
    (hs : st ≠ .succeeded)
    (ht : View.tracked { v with requests := v.requests.set i (req, st'), pc } = v.tracked)
    (hp : ∀ k, pc ≠ .failResponse k none) :
    Valid reqs { v with requests := v.requests.set i (req, st'), pc } where
  requests := (map_set_of_eq (b := (req, st')) hi rfl).trans h.requests
  unsent := by
    intro j req' st'' hj hn
    rw [List.getElem?_set] at hj
    split at hj
    case isFalse => exact h.unsent hj hn
    case isTrue he =>
      split at hj <;> cases hj
      exact he ▸ h.unsent hi hs
  tracked := by rw [ht]; exact h.tracked
  answer hk := absurd hk (hp _)
  guarded := h.guarded
  matched := h.matched
  accepted := h.accepted

-- The response `k` goes to another stage without having been accepted.
include h in
theorem setResponse {id code : UInt64} {req req' : Option Nat} {st st' : Stage} {pc : Pc}
    (hk : v.responses[k]? = some (id, code, req, st)) (hs : st ≠ .succeeded)
    (hs' : st' ≠ .succeeded)
    (ht : View.tracked { v with responses := v.responses.set k (id, code, req', st'), pc } = v.tracked)
    (hp : ∀ k', pc = .failResponse k' none → k' = k ∧ st' = .waiting ∧ ∃ i req, req' = some i ∧
      v.pending.get id = some i ∧ reqs[i]? = some req ∧ req.want = code) :
    Valid reqs { v with responses := v.responses.set k (id, code, req', st'), pc } where
  requests := h.requests
  unsent := h.unsent
  tracked := by rw [ht]; exact h.tracked
  answer := by
    intro k' hk'
    obtain ⟨rfl, rfl, i, req, rfl, hg, hi, hw⟩ := hp k' hk'
    have hl := (List.getElem?_eq_some_iff.mp hk).choose
    exact ⟨id, code, i, req, List.getElem?_set_self hl, hg, hi, hw⟩
  guarded := h.guarded
  matched := by
    intro k' i hm
    obtain ⟨req, hi, hr⟩ := h.matched hm
    refine ⟨req, hi, ?_⟩
    have hn : k ≠ k' := by
      rintro rfl
      cases hk.symm.trans hr
      exact hs rfl
    exact (List.getElem?_set_ne hn).trans hr
  accepted := by
    intro k' id code req hr
    rw [List.getElem?_set] at hr
    split at hr
    case isFalse => exact h.accepted hr
    case isTrue  =>
      split at hr <;> cases hr
      exact absurd rfl hs'

include h in
theorem sent {req : Request} (hp : v.pc = .failRequest i none)
    (hi : v.requests[i]? = some (req, .waiting)) (hd : (reqs.map Request.id).Nodup) :
    Valid reqs { v with
      requests := v.requests.set i (req, .succeeded)
      pc := .track i none
      log := v.log ++ [.sent i] } := by
  have hl := (List.getElem?_eq_some_iff.mp hi).choose
  have hr := h.getElem?_reqs hi
  have hs : status (v.log ++ [.sent i]) i req.id = .pending := by
    rw [status_concat, h.unsent hi Stage.noConfusion]
    exact if_pos rfl
  have ho (j : Nat) (id : UInt64) (hn : j ≠ i) :
      status (v.log ++ [.sent i]) j id = status v.log j id := by
    rw [status_concat]
    cases status v.log j id <;> simp [Status.next, hn.symm]
  constructor
  case requests => exact (map_set_of_eq (b := (req, .succeeded)) hi rfl).trans h.requests
  case answer   => exact Pc.noConfusion
  case guarded  => exact fun hj => (h.guarded hj).concat fun _ => Op.noConfusion
  case unsent =>
    intro j req' st hj hn
    rw [List.getElem?_set] at hj
    split at hj
    case isFalse he => exact (ho j _ (Ne.symm he)).trans (h.unsent hj hn)
    case isTrue     =>
      cases hj
      exact absurd rfl hn
  case tracked =>
    have ht : v.tracked = v.pending := by simp only [View.tracked, hp]
    have hg : (v.requests.set i (req, Stage.succeeded))[i]? = some (req, .succeeded) :=
      List.getElem?_set_self hl
    intro id j
    simp only [View.tracked, hg, GoMap.get_set]
    split
    case isTrue he =>
      -- No other request has this id.
      subst he
      constructor
      case mp =>
        rintro ⟨⟩
        exact ⟨req, hr, rfl, hs⟩
      case mpr =>
        rintro ⟨req', hj, he, _⟩
        exact congrArg some <| index_unique hd hr hj he.symm
    case isFalse hn =>
      rw [← ht, h.tracked]
      refine exists_congr fun req' => and_congr_right fun hj => and_congr_right fun he => ?_
      have hij : j ≠ i := by
        rintro rfl
        cases hr.symm.trans hj
        exact hn he.symm
      rw [ho j id hij]
  case matched =>
    intro k j hm
    refine h.matched <| (mem_append.mp hm).resolve_right fun hm => ?_
    cases mem_singleton.mp hm
  case accepted =>
    intro k id code req hk
    obtain ⟨j, hj, hm⟩ := h.accepted hk
    exact ⟨j, hj, mem_append_left _ hm⟩

-- An operation that ends a request corresponds to its removal.
include h in
theorem tracked_del (ht : v.tracked = v.pending) (id : UInt64)
    (ho : ∀ j req, reqs[j]? = some req → (status (v.log ++ [op]) j req.id = .pending ↔
      req.id ≠ id ∧ status v.log j req.id = .pending)) {id' : UInt64} {j : Nat} :
    (v.pending.del id).get id' = some j ↔
      ∃ req, reqs[j]? = some req ∧ req.id = id' ∧ status (v.log ++ [op]) j id' = .pending := by
  rw [GoMap.get_del]
  split
  case isTrue he =>
    refine iff_of_false (Option.some_ne_none j).symm ?_
    rintro ⟨req, hj, rfl, hs⟩
    exact ((ho j req hj).mp hs).left he
  case isFalse hn =>
    rw [← ht, h.tracked]
    refine exists_congr fun req => and_congr_right fun hj => and_congr_right ?_
    rintro rfl
    rw [ho j req hj, and_iff_right hn]

include h in
theorem cancel (id : UInt64) (c : Nat) (hp : v.pc = .select) : Valid reqs { v with
      pending := v.pending.del id
      pc := .failCancel c
      log := v.log ++ [.cancelled id] } := by
  have ht : v.tracked = v.pending := by simp only [View.tracked, hp]
  constructor
  case requests => exact h.requests
  case answer   => exact Pc.noConfusion
  case guarded  => exact fun hj => (h.guarded hj).concat fun _ => Op.noConfusion
  case tracked =>
    refine h.tracked_del ht id ?_
    intro j req _
    rw [status_concat]
    cases status v.log j req.id <;> simp [Status.next, eq_comm]
  case unsent =>
    intro j req' st' hj hn
    exact status_concat.trans <| congrArg (Status.next _ _ · _) (h.unsent hj hn)
  case matched =>
    intro k j hm
    refine h.matched <| (mem_append.mp hm).resolve_right fun hm => ?_
    cases mem_singleton.mp hm
  case accepted =>
    intro k id code req hk
    obtain ⟨j, hj, hm⟩ := h.accepted hk
    exact ⟨j, hj, mem_append_left _ hm⟩

include h in
theorem accept {id code : UInt64} (hp : v.pc = .failResponse k none)
    (hk : v.responses[k]? = some (id, code, some i, .waiting)) (hd : (reqs.map Request.id).Nodup) :
    Valid reqs { v with
      responses := v.responses.set k (id, code, some i, .succeeded)
      pc := .untrack id
      log := v.log ++ [.accepted k i] } := by
  have ht : v.tracked = v.pending := by simp only [View.tracked, hp]
  have hl := (List.getElem?_eq_some_iff.mp hk).choose
  obtain ⟨_, _, _, req, hk', hg, hi, hw⟩ := h.answer hp
  cases hk.symm.trans hk'
  -- The request is pending, because the dispatcher has found it.
  obtain ⟨req', hi', he, hs⟩ := h.tracked.mp (ht ▸ hg)
  cases hi.symm.trans hi'
  cases he
  constructor
  case requests => exact h.requests
  case answer   => exact Pc.noConfusion
  case guarded =>
    intro j req' hj
    refine (h.guarded hj).concat ?_
    rintro k' ⟨⟩
    cases hi.symm.trans hj
    exact hs
  case tracked =>
    refine h.tracked_del ht req.id ?_
    intro j req' hj
    have hij : i = j ↔ req'.id = req.id := by
      constructor
      case mp =>
        rintro rfl
        cases hi.symm.trans hj
        rfl
      case mpr => exact fun he => index_unique hd hi hj he.symm
    rw [status_concat]
    cases status v.log j req'.id <;> simp [Status.next, hij]
  case unsent =>
    intro j req' st' hj hn
    exact status_concat.trans <| congrArg (Status.next _ _ · _) (h.unsent hj hn)
  case matched =>
    intro k' j hm
    rcases mem_append.mp hm with hm | hm
    case inr =>
      cases mem_singleton.mp hm
      exact ⟨req, hi, hw ▸ List.getElem?_set_self hl⟩
    case inl =>
      obtain ⟨req', hj, hr⟩ := h.matched hm
      have hn : k ≠ k' := by
        rintro rfl
        have he := Option.some.inj <| hk.symm.trans hr
        exact Stage.noConfusion (congrArg (·.snd.snd.snd) he)
      exact ⟨req', hj, (List.getElem?_set_ne hn).trans hr⟩
  case accepted =>
    intro k' id code req hr
    rw [List.getElem?_set] at hr
    split at hr
    case isTrue he =>
      cases hr
      exact ⟨i, rfl, mem_append_right _ (he ▸ mem_singleton.mpr rfl)⟩
    case isFalse =>
      obtain ⟨j, hj, hm⟩ := h.accepted hr
      exact ⟨j, hj, mem_append_left _ hm⟩

include h in
theorem respond (id code : UInt64) :
    Valid reqs { v with responses := v.responses ++ [(id, code, none, .open)] } := by
  -- The calls so far keep their numbers.
  have old {k : Nat} {x : UInt64 × UInt64 × Option Nat × Stage} (hk : v.responses[k]? = some x) :
      (v.responses ++ [(id, code, none, .open)])[k]? = some x := by
    rw [List.getElem?_append_left (List.getElem?_eq_some_iff.mp hk).choose, hk]
  constructor
  case requests => exact h.requests
  case unsent   => exact h.unsent
  case tracked  => exact h.tracked
  case guarded  => exact h.guarded
  case answer =>
    intro k hp
    obtain ⟨id', code', i, req, hk, hr⟩ := h.answer hp
    exact ⟨id', code', i, req, old hk, hr⟩
  case matched =>
    intro k i hm
    obtain ⟨req, hi, hk⟩ := h.matched hm
    exact ⟨req, hi, old hk⟩
  case accepted =>
    intro k id' code' req hk
    by_cases hl : k < v.responses.length
    case pos => exact h.accepted <| (List.getElem?_append_left hl).symm.trans hk
    case neg =>
      rw [List.getElem?_append_right (Nat.le_of_not_lt hl)] at hk
      cases mem_singleton.mp (mem_of_getElem? hk)

include h in
theorem turn (hd : (reqs.map Request.id).Nodup) (t : v.Turn v') : Valid reqs v' := by
  cases t
  case aside => exact h
  case respond id code => exact h.respond id code
  case receiveRequest hp hi =>
    exact h.setRequest hi Stage.noConfusion (by simp only [View.tracked, hp]) fun _ => Pc.noConfusion
  case send err hp =>
    exact h.idle rfl rfl rfl (by simp only [View.tracked, hp]) fun _ => Pc.noConfusion
  case sent hp hi   => exact h.sent hp hi hd
  case unsent hp hi =>
    exact h.setRequest hi Stage.noConfusion (by simp only [View.tracked, hp]) fun _ => Pc.noConfusion
  case track hp hi =>
    exact h.idle rfl rfl rfl (by simp only [View.tracked, hp, hi]) fun _ => Pc.noConfusion
  case skip hp =>
    exact h.idle rfl rfl rfl (by simp only [View.tracked, hp]) fun _ => Pc.noConfusion
  case cancel c hp _ => exact h.cancel _ c hp
  case cancelled hp =>
    exact h.idle rfl rfl rfl (by simp only [View.tracked, hp]) fun _ => Pc.noConfusion
  case receiveResponse k id code req err hp hk hv =>
    refine h.setResponse hk Stage.noConfusion Stage.noConfusion (by simp only [View.tracked, hp]) ?_
    rintro k' ⟨⟩
    obtain ⟨i, req, st, hg, hi, hw⟩ := hv rfl
    exact ⟨rfl, rfl, i, req, hg, hg, h.getElem?_reqs hi, hw⟩
  case reject hp hk =>
    exact h.setResponse hk Stage.noConfusion Stage.noConfusion (by simp only [View.tracked, hp])
      fun _ => Pc.noConfusion
  case accept hp hk => exact h.accept hp hk hd
  case untrack hp =>
    exact h.idle rfl rfl rfl (by simp only [View.tracked, hp]) fun _ => Pc.noConfusion
  case quit hp =>
    exact h.idle rfl rfl rfl (by simp only [View.tracked, hp]) fun _ => Pc.noConfusion

end Valid
end View

theorem valid_start (reqs : List Request) : View.Valid reqs (start reqs).view := by
  constructor
  case requests => exact (map_map ..).trans <| (map_map ..).trans (map_id _)
  case unsent   => exact fun _ _ => rfl
  case tracked  => simp [View.tracked, view, start, status]
  case answer   => exact Pc.noConfusion
  case guarded  => simp [Guarded, view, start]
  case matched  => simp [view, start]
  case accepted => simp [view, start]

theorem View.Valid.reachable (hd : (reqs.map Request.id).Nodup)
    (r : (machine reqs).Reachable anyStep s) : View.Valid reqs s.view := by
  refine r.invariant (I := fun s => View.Valid reqs s.view) (valid_start reqs) ?_
  intro s e s' h _ hs
  exact h.turn hd (turn_of_step hs)

end Invariant

def req? (s : Dispatcher) (i : Nat) : Option Request :=
  s.requests[i]?.map Request.Call.req

def Response.isAccepted (res : Response) : Prop :=
  Response.stage res.pc = .succeeded

structure Correct (s : Dispatcher) : Prop where
  -- A response is only accepted for a request that is pending, and that waits for it.
  accepted : ∀ l₁ k i l₂, s.log = l₁ ++ .accepted k i :: l₂ → ∃ req res, s.req? i = some req ∧
    s.responses[k]? = some res ∧ status l₁ i req.id = .pending ∧ res.id = req.id ∧
      res.code = req.want
  -- Nothing is delivered that was not accepted.
  clients : ∀ k res, s.responses[k]? = some res → Response.isAccepted res →
    ∃ i, res.req = some i ∧ .accepted k i ∈ s.log
  once : ∀ i, s.log.countP (Op.accepts i) ≤ 1
  received : ∀ k s', s.step (.receiveResponse k) = .ok s' →
    s'.pending = s.pending ∧ ∃ err, s'.pc = .failResponse k err
  -- Until the dispatcher is at its `select` statement again, a rejected response changes nothing.
  rejected : ∀ k err, s.pc = .failResponse k (some err) → ∀ e s', s.step e = .ok s' →
    s'.pending = s.pending ∧ (s'.pc = s.pc ∨ s'.pc = .select)
  pending : s.pc = .select → ∀ id i, s.pending.get id = some i ↔
    ∃ req, s.req? i = some req ∧ req.id = id ∧ status s.log i id = .pending

theorem View.Turn.rejected {v v' : View} {err : GoError} (t : v.Turn v')
    (hp : v.pc = .failResponse k (some err)) :
    v'.pending = v.pending ∧ (v'.pc = v.pc ∨ v'.pc = .select) := by
  cases t
  case aside   => exact ⟨rfl, .inl rfl⟩
  case respond => exact ⟨rfl, .inl rfl⟩
  case reject  => exact ⟨rfl, .inr rfl⟩
  all_goals cases hp.symm.trans ‹v.pc = _›

theorem received_of_step (h : s.step (.receiveResponse k) = .ok s') :
    s'.pending = s.pending ∧ ∃ err, s'.pc = .failResponse k err := by
  simp only [step, receiveResponse] at h
  split at h <;> cases h
  exact ⟨rfl, _, rfl⟩

namespace View.Valid

variable (h : View.Valid reqs s.view)

include h in
theorem req?_eq : s.req? i = reqs[i]? := by
  rw [req?, ← h.requests, view, map_map, List.getElem?_map]
  rfl

-- The request of an accepted response, and the response.
include h in
theorem exists_res (hm : .accepted k i ∈ s.log) : ∃ req res, s.req? i = some req ∧
    s.responses[k]? = some res ∧ res.id = req.id ∧ res.code = req.want := by
  obtain ⟨req, hi, hk⟩ := h.matched hm
  rw [view, List.getElem?_map] at hk
  obtain ⟨res, hr, he⟩ := Option.map_eq_some_iff.mp hk
  have hc := congrArg (fun x => (x.fst, x.snd.fst)) he
  exact ⟨req, res, h.req?_eq.trans hi, hr, congrArg Prod.fst hc, congrArg Prod.snd hc⟩

include h in
theorem once : s.log.countP (Op.accepts i) ≤ 1 := by
  cases hi : reqs[i]?
  case some req => exact (h.guarded hi).countP_accepts
  case none =>
    refine Nat.le_trans (Nat.le_of_eq <| List.countP_eq_zero.mpr fun op hm ho => ?_) (Nat.zero_le 1)
    cases op <;> simp only [Op.accepts, Bool.false_eq_true, decide_eq_true_eq] at ho
    case accepted k j =>
      cases ho
      obtain ⟨req, hr, _⟩ := h.matched hm
      cases hi.symm.trans hr

include h in
theorem correct : Correct s := by
  constructor
  case accepted =>
    intro l₁ k i l₂ hl
    obtain ⟨req, res, hi, hk, hm⟩ := h.exists_res (hl ▸ mem_append_right _ mem_cons_self)
    exact ⟨req, res, hi, hk, h.guarded (h.req?_eq.symm.trans hi) l₁ k l₂ hl, hm⟩
  case clients =>
    intro k res hk ha
    have hk := getElem?_view_responses hk
    rw [show Response.stage res.pc = .succeeded from ha] at hk
    exact h.accepted hk
  case once     => exact fun _ => h.once
  case received => exact fun _ _ => received_of_step
  case rejected => exact fun _ _ hp _ _ hs => (turn_of_step hs).rejected hp
  case pending =>
    intro hp id i
    have ht : s.view.tracked = s.pending := by simp only [View.tracked, view, hp]
    rw [h.req?_eq, ← ht]
    exact h.tracked

end View.Valid

theorem correct_of_reachable (hd : (reqs.map Request.id).Nodup)
    (r : (machine reqs).Reachable anyStep s) : Correct s :=
  (View.Valid.reachable hd r).correct

def sampleRequests : List Request :=
  [⟨1, 3, 4⟩, ⟨2, 5, 6⟩]

-- The first request gets a response of another type before its own one. The second one is cancelled
-- before its response arrives.
def sampleRun : List Event := [
  .dispatchRequest 0, .dispatchRequest 1,
  .receiveRequest 1, .send none, .fail, .finish,
  .receiveRequest 0, .send none, .fail, .finish,
  .dispatchResponse 1 6, .dispatchResponse 1 4, .close 1, .dispatchResponse 2 6,
  .receiveResponse 0, .fail,
  .receiveResponse 1, .fail, .finish,
  .receiveCancel 0, .fail,
  .receiveResponse 2, .fail,
  .check 1, .deliver 1, .done 1 none
]

theorem correct_sampleRun : (sampleRequests.map Request.id).Nodup ∧
    ∃ s, (machine sampleRequests).run (start sampleRequests) sampleRun = .ok s ∧
      s.log = [.sent 1, .sent 0, .accepted 1 0, .cancelled 2] ∧
      s.responses.map Response.pc = [.rejected, .handled none, .rejected] ∧ Correct s := by
  have hd : (sampleRequests.map Request.id).Nodup := by decide
  obtain ⟨s, hs, hl, hr⟩ : ∃ s, (machine sampleRequests).run (start sampleRequests) sampleRun = .ok s ∧
      s.log = [.sent 1, .sent 0, .accepted 1 0, .cancelled 2] ∧
      s.responses.map Response.pc = [.rejected, .handled none, .rejected] := ⟨_, rfl, rfl, rfl⟩
  exact ⟨hd, s, hs, hl, hr, correct_of_reachable hd <| .run .init (fun _ _ _ => trivial) hs⟩

-- The cancellation is acknowledged before the request is sent.
def earlyClose : List Event := [
  .dispatchRequest 0, .close 0, .receiveCancel 0, .fail, .closeCancel 0,
  .receiveRequest 0, .send none, .fail, .finish,
  .dispatchResponse 1 4, .receiveResponse 0, .fail
]

theorem not_cancelled_early :
    ¬∀ (reqs : List Request) (s : Dispatcher), (reqs.map Request.id).Nodup →
      (machine reqs).Reachable anyStep s → ∀ l₁ k i l₂ req,
        s.log = l₁ ++ .accepted k i :: l₂ → s.req? i = some req → .cancelled req.id ∉ l₁ := by
  intro h
  obtain ⟨s, hs, hl, hr⟩ : ∃ s, (machine sampleRequests).run (start sampleRequests) earlyClose = .ok s ∧
      s.log = [.cancelled 1, .sent 0] ++ [.accepted 0 0] ∧ s.req? 0 = some ⟨1, 3, 4⟩ :=
    ⟨_, rfl, rfl, rfl⟩
  exact h sampleRequests s (by decide) (.run .init (fun _ _ _ => trivial) hs) _ 0 0 [] _ hl hr
    (by simp)

end Eth.Dispatcher

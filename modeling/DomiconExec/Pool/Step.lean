import DomiconExec.Primitives.Transition
import DomiconExec.Pool.State

namespace FilePool

def errAlreadyKnown : GoError :=
  ⟨"already known"⟩

def errFdPoolOverflow : GoError :=
  ⟨"fileData pool is full"⟩

def validateFileDataSignature (env : Env) (da : DA) (isLocal : Bool) : Bool × Option GoError :=
  if isLocal then
    (true, none)
  else if da.length ≠ UInt64.ofNat da.data.length then
    (false, some ⟨"fileData data length not match legth"⟩)
  else if da.signData.length = 0 then
    (false, some ⟨"fileData signature is empty"⟩)
  else
    match env.initMultiAdaptiveSdk with
    | some err => (false, some err)
    | none =>
      match env.verifyCommitWithProof da.commitment.marshal da.proof da.claimedValue with
      | some err => (false, some err)
      | none     => (true, none)

-- The error of the journal is only logged.
def journalFd (env : Env) (fp : FilePool) (txHash : Hash) (fd : Ref) : FilePool :=
  match fp.journal with
  | none => fp
  | some j =>
    if !fp.config.journalRemote && txHash ∉ fp.collector then
      fp
    else
      { fp with journal := some (j.insert env fd).fst }

def addFd (env : Env) (fp : FilePool) (fd : Ref) : FilePool × Option GoError :=
  let da := env.heap fd
  let hash := da.key
  if (fp.all.get hash).isSome then
    (fp, some errAlreadyKnown)
  else if UInt64.ofInt (fp.all.slots + 1) > fp.config.globalSlots then
    (fp, some errFdPoolOverflow)
  else
    let fp := fp.journalFd env hash fd
    ({ fp with all := fp.all.add fd da, beats := fp.beats.set hash env.now }, none)

def addFdsLocked (env : Env) : FilePool → List Ref → FilePool × List (Option GoError)
  | fp, [] => (fp, [])
  | fp, fd :: fds =>
    let (fp, err) := fp.addFd env fd
    let (fp, errs) := addFdsLocked env fp fds
    (fp, err :: errs)

-- The variables of the first loop of `Add`.
structure Screened where
  diskCache : GoMap Hash GoTime
  errs : List (Option GoError)
  news : List Ref

-- The first loop of `Add`. The error of the validation has no effect but to be appended.
def screen (env : Env) (fp : FilePool) (isLocal : Bool) : List Ref → Nat → Screened → Screened
  | [], _, s => s
  | fd :: fds, i, s =>
    let da := env.heap fd
    let (flag, err) := validateFileDataSignature env da isLocal
    let s := if !flag || err.isSome then { s with errs := s.errs ++ [err] } else s
    let hashData := da.key
    let s := if fp.nodeType = "b" then
        { s with diskCache := s.diskCache.set hashData da.receiveAt }
      else
        s
    if (fp.all.get hashData).isSome then
      screen env fp isLocal fds (i + 1) { s with errs := s.errs.set i (some errAlreadyKnown) }
    else
      screen env fp isLocal fds (i + 1) { s with news := s.news ++ [fd] }

def merge : List (Ref × Option GoError) → Nat → List (Option GoError) → List Ref →
    Except GoPanic (List (Option GoError) × List Ref)
  | [], _, errs, final => .ok (errs, final)
  | (fd, err) :: rest, nilSlot, errs, final =>
    let final := if err.isNone then final ++ [fd] else final
    let nilSlot := nilSlot + (errs.drop nilSlot).findIdx Option.isNone
    if nilSlot < errs.length then
      merge rest (nilSlot + 1) (errs.set nilSlot err) final
    else
      .error .indexOutOfRange

-- The pool after `Add`, the returned errors and the data of the sent event, if any is sent.
structure Added where
  pool : FilePool
  errs : List (Option GoError)
  event : Option (List Ref)

def add (env : Env) (fp : FilePool) (fds : List Ref) (isLocal : Bool) : Except GoPanic Added := do
  let s := screen env fp isLocal fds 0 ⟨fp.diskCache, List.replicate fds.length none, []⟩
  let fp := { fp with diskCache := s.diskCache }
  if s.news.length = 0 then
    return ⟨fp, s.errs, none⟩
  let (fp, newErrs) := fp.addFdsLocked env s.news
  let (errs, final) ← merge (s.news.zip newErrs) 0 s.errs []
  return ⟨fp, errs, if final.length ≠ 0 then some final else none⟩

-- The exported method `RemoveFileData`. The test of the length of the hash always succeeds. The
-- slots are not released.
def removeAll (heap : Heap) (fp : FilePool) (das : List Ref) : FilePool :=
  das.foldl (fun fp fd =>
    let da := heap fd
    let collector := fp.all.collector.del da.txHash |>.del da.commitment.hash
    { fp with all := { fp.all with collector } }) fp

def removeFileData (fp : FilePool) (hash : Hash) : FilePool × Option GoError :=
  match fp.all.get hash with
  | none => (fp, some ⟨"fileData with that fd hash not exist"⟩)
  | some _ =>
    ({ fp with
      beats := fp.beats.del hash
      all := fp.all.remove hash
      collector := fp.collector.del hash
    }, none)

inductive Event
  | add (env : Env) (fds : List Ref) (isLocal : Bool)
  | removeAll (heap : Heap) (das : List Ref)
  | removeFileData (hash : Hash)

def step (fp : FilePool) : Event → Except GoPanic FilePool
  | .add env fds isLocal  => Added.pool <$> fp.add env fds isLocal
  | .removeAll heap das   => .ok (fp.removeAll heap das)
  | .removeFileData hash  => .ok (fp.removeFileData hash).fst

def machine (config : Config) (path nodeType : String) :
    Transition.System FilePool Event GoPanic where
  init := new config path nodeType
  step := step

end FilePool

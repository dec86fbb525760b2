import TraceCommons.Lib.Conc

/-! # Signed witness routing

`install` and `load_verified` over the two files of a configuration directory: the cache with the
signed bytes, and the high water that names the newest payload ever published. Both run under an
exclusive file lock; a process may stop anywhere and a write may fail before or after it took
effect. Whoever else has access may lose, corrupt or replace the cache at any time. -/

namespace TraceCommons.Witness

open Conc

inductive ErrorLabel
  | urlMismatch | measurement | store
  | document (label : String)
  deriving DecidableEq

/-- A validated `WitnessConfiguration`, as far as routing installs it. -/
structure WitnessConfiguration (Url : Type) where
  version : Nat
  enrollmentUrls : List Url
  measurementsValid : Bool
  versionPositive : 0 < version

/-- The protocol crate and the compiled channel: the envelope and the payload of a signed
document, signatures, the payload hash, and which enrollments delegate to the Commons signer.
`signed` holds of the bytes that verify under some keys. -/
structure Protocol (Bytes Payload Digest Keys Url : Type) where
  readEnvelope : Bytes → Except ErrorLabel Payload
  signatureVerifies : Keys → Bytes → Bool
  signed : Bytes → Bool
  signed_iff : ∀ bytes, signed bytes ↔ ∃ keys, signatureVerifies keys bytes
  readPayload : Payload → Except ErrorLabel (WitnessConfiguration Url)
  payloadSha256 : Payload → Digest
  isCommonsEnrollment : Url → Bool
  sameUrl : Url → Url → Bool

structure HighWater (Digest : Type) where
  version : Nat
  payloadSha256 : Digest
  cacheGeneration : Nat
  deriving DecidableEq

structure CachedDocument (Payload Digest Url : Type) where
  payload : Payload
  config : WitnessConfiguration Url
  highWater : HighWater Digest

variable {Bytes Payload Digest Keys Url : Type} [DecidableEq Digest]

def HighWater.samePayload (a b : HighWater Digest) : Bool :=
  a.version = b.version ∧ a.payloadSha256 = b.payloadSha256

variable (P : Protocol Bytes Payload Digest Keys Url)

def WitnessConfiguration.namesWitness (c : WitnessConfiguration Url) (url : Url) : Bool :=
  c.enrollmentUrls.any (P.sameUrl · url)

/-- `verify_signed_configuration`. -/
def verifySignedConfiguration (bytes : Bytes)
    (keys : Keys) : Except ErrorLabel (Payload × WitnessConfiguration Url) :=
  match P.readEnvelope bytes with
  | .error e => .error e
  | .ok payload =>
    if P.signatureVerifies keys bytes then
      (P.readPayload payload).map fun config => (payload, config)
    else .error (.document "witness-configuration-signature-invalid")

def verifiedDocument (bytes : Bytes) (keys : Keys) :
    Except ErrorLabel (CachedDocument Payload Digest Url) :=
  match verifySignedConfiguration P bytes keys with
  | .error e => .error e
  | .ok (payload, config) =>
    if config.measurementsValid then
      .ok ⟨payload, config, ⟨config.version, P.payloadSha256 payload, 1⟩⟩
    else .error .measurement

/-! ## The directory -/

inductive Answer (Payload : Type)
  | installed (version : Nat) (payload : Payload)
  | notNewer
  | loaded (version : Nat) (payload : Payload)
  | nothing
  | failed (error : ErrorLabel)

/-- An answer, the high water it was given under, and the cache generation when the lock was
taken. -/
structure Answered (Payload Digest : Type) where
  answer : Answer Payload
  high : Option (HighWater Digest)
  entered : Nat

/-- The two files; `entered` and the answers given, newest first, are what an observer of the
directory writes down. -/
structure Dir (Bytes Payload Digest : Type) where
  cache : Option Bytes := none
  high : Option (HighWater Digest) := none
  entered : Nat := 0
  answers : List (Answered Payload Digest) := []

/-- The generation of the high water, zero before there is one. -/
def generation (high : Option (HighWater Digest)) : Nat :=
  match high with
  | none => 0
  | some h => h.cacheGeneration

inductive Op (Bytes Payload Digest : Type)
  | lock
  | readCache
  | readHigh
  | saveHigh (high : HighWater Digest)
  | writeCache (bytes : Bytes)
  | answer (a : Answer Payload)

abbrev Reply : Op Bytes Payload Digest → Type
  | .lock => Except ErrorLabel Unit
  | .readCache => Except ErrorLabel (Option Bytes)
  | .readHigh => Except ErrorLabel (Option (HighWater Digest))
  | .saveHigh _ => Except ErrorLabel Unit
  | .writeCache _ => Except ErrorLabel Unit
  | .answer _ => Unit

/-- How an operation on a file ends: a failed write has left the old file or the new one. -/
inductive Io
  | done | failedOld | failedNew
  deriving DecidableEq

def Io.result {α : Type} (io : Io) (a : α) : Except ErrorLabel α :=
  match io with
  | .done => .ok a
  | _ => .error .store

def Dir.exec (io : Io) (d : Dir Bytes Payload Digest) :
    (o : Op Bytes Payload Digest) → Reply o × Dir Bytes Payload Digest
  | .lock => (io.result (), { d with entered := generation d.high })
  | .readCache => (io.result d.cache, d)
  | .readHigh => (io.result d.high, d)
  | .saveHigh h => (io.result (), if io = .failedOld then d else { d with high := some h })
  | .writeCache b => (io.result (), if io = .failedOld then d else { d with cache := some b })
  | .answer a => ((), { d with answers := ⟨a, d.high, d.entered⟩ :: d.answers })

/-- What is done to the cache behind the lock's back. -/
inductive Damage (Bytes : Type)
  | none
  | lost
  | replaced (bytes : Bytes)

/-- The version of a signed document; corrupt bytes and bad signatures have none. -/
def documentVersion (bytes : Bytes) : Option Nat :=
  match P.readEnvelope bytes with
  | .error _ => none
  | .ok payload =>
    if P.signed bytes then
      match P.readPayload payload with
      | .error _ => none
      | .ok config => some config.version
    else none

/-- Any bytes may be put in the cache but a signed document of a version the high water has not
reached. -/
def Dir.damage (d : Dir Bytes Payload Digest) : Damage Bytes → Option (Dir Bytes Payload Digest)
  | .none => some d
  | .lost => some { d with cache := .none }
  | .replaced b =>
    if (documentVersion P b).all fun v => d.high.any fun h => v ≤ h.version then
      some { d with cache := some b }
    else Option.none

@[reducible] def dirMachine :
    Machine (Op Bytes Payload Digest) Reply (Dir Bytes Payload Digest) where
  Choice := Io
  Move := Damage Bytes
  exec io d o := some (d.exec io o)
  move m d := d.damage P m
  idle := .none
  move_idle _ := rfl

/-! ## The programs -/

abbrev DirM (Bytes Payload Digest : Type) :=
  Proc (Op Bytes Payload Digest) Reply ErrorLabel Unit

/-- `?` on a reply. -/
def orFail {α : Type} : Except ErrorLabel α → DirM Bytes Payload Digest α
  | .ok a => pure a
  | .error e => Proc.raise e

def installLock : DirM Bytes Payload Digest Unit := do
  orFail (← Proc.call .lock)

def saveHighWater (high : HighWater Digest) : DirM Bytes Payload Digest Unit := do
  orFail (← Proc.call (.saveHigh high))

def writeCache (bytes : Bytes) : DirM Bytes Payload Digest Unit := do
  orFail (← Proc.call (.writeCache bytes))

/-- `cached_document`, from what the file holds. -/
def cachedDocument (keys : Keys) : Except ErrorLabel (Option Bytes) →
      Except ErrorLabel (Option (CachedDocument Payload Digest Url))
  | .error e => .error e
  | .ok none => .ok none
  | .ok (some b) => (verifiedDocument P b keys).map some

/-- The checks of `high_water` on what it parsed. -/
def checkedHigh : Except ErrorLabel (Option (HighWater Digest)) →
    Except ErrorLabel (Option (HighWater Digest))
  | .error e => .error e
  | .ok none => .ok none
  | .ok (some h) =>
    if h.version = 0 ∨ h.cacheGeneration = 0 then .error .store else .ok (some h)

def readHighWater : DirM Bytes Payload Digest (Option (HighWater Digest)) := do
  orFail (checkedHigh (← Proc.call .readHigh))

/-- The generation after `held`; a `u64` runs out. -/
def nextGeneration (high : Option (HighWater Digest)) : Option Nat :=
  match high with
  | none => some 1
  | some held => if held.cacheGeneration + 1 < 2 ^ 64 then some (held.cacheGeneration + 1) else none

/-- Migration from a cache without a high water: a verified cache establishes the floor. -/
def migrate (cached : Except ErrorLabel (Option (CachedDocument Payload Digest Url))) :
    Option (HighWater Digest) → DirM Bytes Payload Digest (Option (HighWater Digest))
  | some h => pure (some h)
  | none =>
    match cached with
    | .error _ => Proc.raise .store
    | .ok none => pure none
    | .ok (some held) => do
      saveHighWater held.highWater
      pure (some held.highWater)

/-- A verified cache above the floor that the incoming document would roll back. -/
def inconsistent (cached : Except ErrorLabel (Option (CachedDocument Payload Digest Url)))
    (high : Option (HighWater Digest)) (incoming : CachedDocument Payload Digest Url) : Bool :=
  match cached with
  | .ok (some cache) =>
    (high.all fun floor => floor.version < cache.highWater.version) &&
      (incoming.highWater.version < cache.highWater.version ||
        (cache.highWater.version = incoming.highWater.version &&
          !cache.highWater.samePayload incoming.highWater))
  | _ => false

/-- The cache verifies and holds the payload of the high water. -/
def cachedIs (cached : Except ErrorLabel (Option (CachedDocument Payload Digest Url)))
    (held : HighWater Digest) : Bool :=
  match cached with
  | .ok (some cache) => cache.highWater.samePayload held
  | _ => false

/-- Publishes the high water first, then the cache. -/
def publish (bytes : Bytes) (payload : Payload) (version : Nat) (next : HighWater Digest) :
    DirM Bytes Payload Digest (Answer Payload) := do
  saveHighWater next
  writeCache bytes
  pure (.installed version payload)

/-- The decision of `install` on what the two files hold. -/
def decideInstall (bytes : Bytes) (incoming : CachedDocument Payload Digest Url)
    (cached : Except ErrorLabel (Option (CachedDocument Payload Digest Url)))
    (high : Option (HighWater Digest)) : DirM Bytes Payload Digest (Answer Payload) :=
  if inconsistent cached high incoming then Proc.raise .store
  else
    let fresh : DirM Bytes Payload Digest (Answer Payload) :=
      match nextGeneration high with
      | none => Proc.raise .store
      | some g => publish bytes incoming.payload incoming.config.version
          { incoming.highWater with cacheGeneration := g }
    match high with
    | none => fresh
    | some held =>
      if incoming.highWater.version < held.version then pure .notNewer
      else if incoming.highWater.version = held.version then
        if ¬ incoming.highWater.samePayload held then pure .notNewer
        else if cachedIs cached held then pure .notNewer
        else match nextGeneration high with
          | none => Proc.raise .store
          | some g => publish bytes incoming.payload held.version { held with cacheGeneration := g }
      else fresh

/-- The part of `install` under the lock. -/
def installLocked (bytes : Bytes) (keys : Keys)
    (incoming : CachedDocument Payload Digest Url) : DirM Bytes Payload Digest (Answer Payload) := do
  installLock
  let cached := cachedDocument P keys (← Proc.call .readCache)
  let high ← readHighWater
  let high ← migrate cached high
  decideInstall bytes incoming cached high

def install (bytes : Bytes) (keys : Keys)
    (enrollmentUrl : Url) : DirM Bytes Payload Digest (Answer Payload) :=
  if ¬ P.isCommonsEnrollment enrollmentUrl then Proc.raise .urlMismatch
  else match verifiedDocument P bytes keys with
    | .error e => Proc.raise e
    | .ok incoming =>
      if ¬ incoming.config.namesWitness P enrollmentUrl then Proc.raise .urlMismatch
      else installLocked P bytes keys incoming

/-- The answer of `read_cache_unlocked` on what the two files hold. -/
def readPair (high : Option (HighWater Digest))
    (cached : Option (CachedDocument Payload Digest Url)) :
    DirM Bytes Payload Digest (Answer Payload) :=
  match high, cached with
  | none, none => pure .nothing
  | none, some held => do
    saveHighWater held.highWater
    pure (.loaded held.config.version held.payload)
  | some high, some held =>
    if high.samePayload held.highWater then pure (.loaded held.config.version held.payload)
    else Proc.raise .store
  | some _, none => Proc.raise .store

/-- `load_verified`, `read_cache_unlocked` under the lock. -/
def loadVerified (keys : Keys) : DirM Bytes Payload Digest (Answer Payload) := do
  installLock
  let cached ← orFail (cachedDocument P keys (← Proc.call .readCache))
  let high ← readHighWater
  readPair high cached

inductive Request (Bytes Keys Url : Type)
  | install (bytes : Bytes) (keys : Keys) (enrollmentUrl : Url)
  | load (keys : Keys)

def Request.body : Request Bytes Keys Url → DirM Bytes Payload Digest (Answer Payload)
  | .install bytes keys url => Witness.install P bytes keys url
  | .load keys => loadVerified P keys

def Answer.ofResult : Except ErrorLabel (Answer Payload) → Answer Payload
  | .ok a => a
  | .error e => .failed e

/-- A call of one of the processes, up to its answer. -/
def serve (r : Request Bytes Keys Url) : DirM Bytes Payload Digest Unit := do
  let result ← Proc.attempt (r.body P)
  Proc.call (Op.answer (Answer.ofResult result))

abbrev DirConfig (Bytes Payload Digest : Type) :=
  Config (Op Bytes Payload Digest) Reply (Dir Bytes Payload Digest) (Except ErrorLabel Unit × Unit)

/-- Any calls, one under the lock at a time, from an empty directory. -/
def run (es : List (Event (dirMachine P) (Request Bytes Keys Url))) :
    Option (DirConfig Bytes Payload Digest) :=
  Config.run (dirMachine P) (fun r => serve P r ()) ⟨⟨{}, []⟩, none⟩ es

end TraceCommons.Witness

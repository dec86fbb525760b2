import TraceCommons.Lib.Trail
import TraceCommons.Witness.Configuration

/-! # The accepted witness list

`install` of a signed list of accepted witness measurements into a state directory. Unlike routing
it takes no lock: a process reads the held list, compares versions and then replaces the file, and
the steps of the daemon and of command-line processes interleave freely. -/

namespace TraceCommons.Witness.Accepted

structure AcceptedEntry where
  measurements : String
  signingAddress : String
  notBefore : Int
  notAfter : Int

def AcceptedEntry.isValidAt (e : AcceptedEntry) (now : Int) : Bool :=
  e.notBefore ≤ now ∧ now < e.notAfter

structure AcceptedList (Url : Type) where
  version : Nat
  witnessUrl : Url
  entries : List AcceptedEntry

/-- The protocol crate: the served shape, a signature under the key it names, a payload with
its own rules, and the parser of a measurement set. -/
structure Protocol (Bytes Payload Signature Key Url Pins : Type) where
  size : Bytes → Nat
  readEnvelope : Bytes → Option (Payload × List Signature)
  signatureVerifies : Payload → Signature → Key → Bool
  readPayload : Payload → Except ErrorLabel (AcceptedList Url)
  sameUrl : Url → Url → Bool
  readPins : String → Option Pins

structure AcceptedWitnessPin (Pins : Type) where
  signingAddress : String
  measurements : Pins

def maxBytes : Nat := 64 * 1024

def acceptsVersion (held : Option Nat) (candidate : Nat) : Bool :=
  held.all (· < candidate)

variable {Bytes Payload Signature Key Url Pins : Type}
  (P : Protocol Bytes Payload Signature Key Url Pins) (keys : List Key)

def verifySignedList (document : Bytes) : Except ErrorLabel (AcceptedList Url) :=
  if maxBytes < P.size document then .error (.document "witness-accepted-list-too-large")
  else match P.readEnvelope document with
  | none => .error (.document "witness-accepted-list-malformed")
  | some (payload, signatures) =>
    if signatures.isEmpty ∨ 4 < signatures.length then
      .error (.document "witness-accepted-list-malformed")
    else if ¬ signatures.any fun s => keys.any (P.signatureVerifies payload s) then
      .error (.document "witness-accepted-list-signature-invalid")
    else P.readPayload payload

/-- `load_verified` on what could be read of the file. -/
def loadVerified : Option Bytes → Option (AcceptedList Url)
  | none => none
  | some bytes =>
    if keys.isEmpty ∨ maxBytes < P.size bytes then none
    else (verifySignedList P keys bytes).toOption

def parseEntries (list : AcceptedList Url) : Option (List Pins) :=
  list.entries.mapM fun e => P.readPins e.measurements

/-- What `accepted_pins` makes of the list it has loaded. -/
def AcceptedList.pins (list : AcceptedList Url) (url : Url) (now : Int) :
    List (AcceptedWitnessPin Pins) :=
  if ¬ P.sameUrl list.witnessUrl url then []
  else match parseEntries P list with
  | none => []
  | some parsed => ((list.entries.zip parsed).filter (·.1.isValidAt now)).map fun p =>
      ⟨p.1.signingAddress, p.2⟩

def acceptedPins (file : Option Bytes) (url : Url) (now : Int) : List (AcceptedWitnessPin Pins) :=
  match loadVerified P keys file with
  | none => []
  | some list => list.pins P url now

inductive InstallOutcome
  | installed (version : Nat)
  | notNewer

/-- `install` up to its write; `installed` is what it answers once the document is written. -/
def install (document : Bytes) (url : Url) (read : Option Bytes) :
    Except ErrorLabel InstallOutcome :=
  match verifySignedList P keys document with
  | .error e => .error e
  | .ok list =>
    if ¬ P.sameUrl list.witnessUrl url then .error .urlMismatch
    else if (parseEntries P list).isNone then .error .measurement
    else if acceptsVersion ((loadVerified P keys read).map (·.version)) list.version then
      .ok (.installed list.version)
    else .ok .notNewer

/-! ## Processes -/

/-- An install about to write its document, and what it has read of the file. -/
structure Writer (Bytes : Type) where
  read : Option Bytes
  document : Bytes

structure StateDir (Bytes : Type) where
  file : Option Bytes
  writers : List (Writer Bytes) := []

/-- An install runs up to its comparison, its read of the file possibly failing; or one that goes
on ends its atomic write. A process that dies has left the old file or the new one. -/
inductive Event (Bytes Url : Type)
  | compare (document : Bytes) (url : Url) (readable : Bool)
  | write (i : Nat) (io : Io)

def step (s : StateDir Bytes) : Event Bytes Url → StateDir Bytes
  | .compare document url readable =>
    let read := if readable then s.file else none
    match install P keys document url read with
    | .ok (.installed _) => { s with writers := s.writers ++ [⟨read, document⟩] }
    | _ => s
  | .write i io =>
    match s.writers[i]? with
    | none => s
    | some w => ⟨if io = .failedOld then s.file else some w.document, s.writers.eraseIdx i⟩

/-- An install writes over what it has read: nobody wrote since, and the read did not fail. -/
def OverRead (s : StateDir Bytes) : Event Bytes Url → Prop
  | .write i _ => ∀ w ∈ s.writers[i]?, w.read = s.file
  | .compare .. => True

/-- The document verifies and is newer than the list its install has read. -/
def Writer.Newer (w : Writer Bytes) : Prop :=
  ∃ list, loadVerified P keys (some w.document) = some list ∧
    ∀ held ∈ loadVerified P keys w.read, held.version < list.version

def StateDir.Compared (s : StateDir Bytes) : Prop := ∀ w ∈ s.writers, w.Newer P keys

/-- `held` is stored, or a newer list. -/
def StateDir.HasSince (s : StateDir Bytes) (held : AcceptedList Url) : Prop :=
  ∃ list, loadVerified P keys s.file = some list ∧ (list = held ∨ held.version < list.version)

variable {P keys} {s : StateDir Bytes} {document : Bytes} {ev : Event Bytes Url}

theorem loadVerified_of_verified {list : AcceptedList Url}
    (h : verifySignedList P keys document = .ok list) :
    loadVerified P keys (some document) = some list := by
  have hsize : ¬ maxBytes < P.size document := by
    intro hlt
    rw [verifySignedList, if_pos hlt] at h
    cases h
  have hkeys : keys ≠ [] := by
    rintro rfl
    simp only [verifySignedList, if_neg hsize] at h
    split at h
    · cases h
    · split at h <;> simp at h
  simp [loadVerified, hsize, hkeys, h, Except.toOption]

theorem install_newer {url : Url} {read : Option Bytes} {v : Nat}
    (h : install P keys document url read = .ok (.installed v)) :
    Writer.Newer P keys ⟨read, document⟩ := by
  unfold install at h
  split at h
  · cases h
  rename_i list hlist
  split at h
  · cases h
  split at h
  · cases h
  split at h
  · rename_i hnewer
    refine ⟨list, loadVerified_of_verified hlist, fun held hheld => ?_⟩
    simpa [Option.mem_def.1 hheld, acceptsVersion] using hnewer
  · cases h

theorem step_compared (hw : s.Compared P keys) : (step P keys s ev).Compared P keys := by
  cases ev with
  | compare document url readable =>
    simp only [step]
    split
    · rename_i hinstall
      rw [StateDir.Compared, List.forall_mem_append, List.forall_mem_singleton]
      exact ⟨hw, install_newer hinstall⟩
    · exact hw
  | write i io =>
    simp only [step]
    split
    · exact hw
    · exact fun w hmem => hw w (List.mem_of_mem_eraseIdx hmem)

theorem step_hasSince {held : AcceptedList Url} (hw : s.Compared P keys) (ho : OverRead s ev)
    (hs : s.HasSince P keys held) :
    (step P keys s ev).HasSince P keys held := by
  cases ev with
  | compare document url readable =>
    simp only [step]
    split <;> exact hs
  | write i io =>
    simp only [step]
    split
    · exact hs
    rename_i w hmem
    obtain ⟨list, hlist, hsince⟩ := hs
    split
    · exact ⟨list, hlist, hsince⟩
    obtain ⟨newer, hverified, hnewer⟩ := hw w (List.mem_of_getElem? hmem)
    have hlt := hnewer _ (ho w hmem ▸ hlist)
    exact ⟨newer, hverified, .inr (hsince.elim (· ▸ hlt) hlt.trans')⟩

variable (P keys) in
/-- While installs only write over what they have read, a stored list is followed only by newer
ones, and what is accepted is what the list then stored says. -/
theorem accepted_list_never_goes_back (file : Option Bytes) (es es' : List (Event Bytes Url))
    (held : AcceptedList Url) :
    let s := Trail.run (step P keys) ⟨file, []⟩ es
    let s' := Trail.run (step P keys) s es'
    loadVerified P keys s.file = some held → Trail.Along (step P keys) OverRead s es' →
      ∃ list, loadVerified P keys s'.file = some list ∧
        (list = held ∨ held.version < list.version) ∧
        ∀ url now, acceptedPins P keys s'.file url now = list.pins P url now := by
  intro s s' hheld hover
  have hw : s.Compared P keys :=
    Trail.run_always (I := StateDir.Compared P keys) (fun _ _ => step_compared)
      (List.forall_mem_nil _)
  have hrun : s'.Compared P keys ∧ s'.HasSince P keys held :=
    Trail.run_keeps (I := fun s => s.Compared P keys ∧ s.HasSince P keys held)
      (fun _ _ ho hs => ⟨step_compared hs.1, step_hasSince hs.1 ho hs.2⟩) hover
      ⟨hw, held, hheld, .inl rfl⟩
  obtain ⟨list, hlist, hsince⟩ := hrun.2
  exact ⟨list, hlist, hsince, fun url now => by simp only [acceptedPins, hlist]⟩

/-- Documents that are their version; only the second list has an entry. -/
def numbered : Protocol Nat Nat Unit Unit Unit String where
  size _ := 0
  readEnvelope n := some (n, [()])
  signatureVerifies _ _ _ := true
  readPayload n := .ok ⟨n, (), if n = 2 then [⟨"mrtd", "0x", 0, 1⟩] else []⟩
  sameUrl _ _ := true
  readPins := some

theorem accepted_list_never_goes_back_replaced :
    ∃ list, loadVerified numbered [()] (Trail.run (step numbered [()]) ⟨some 1, []⟩
        [.compare 2 () true, .write 0 .done]).file = some list ∧ 1 ≤ list.version := by
  obtain ⟨list, hlist, hsince, -⟩ := accepted_list_never_goes_back numbered [()] (some 1) []
    [.compare 2 () true, .write 0 .done] ⟨1, (), []⟩ rfl
    ⟨trivial, fun w hw => by cases hw; rfl, trivial⟩
  exact ⟨list, hlist, hsince.elim (· ▸ le_rfl) le_of_lt⟩

/-- Two installs compare with the first list; the third list is written and then the second, and
the entry that the third has dropped is accepted again. -/
theorem accepted_list_goes_back :
    let s := Trail.run (step numbered [()]) ⟨some 1, []⟩
      [.compare 3 () true, .compare 2 () true, .write 0 .done]
    let s' := step numbered [()] s (.write 0 .done)
    ((loadVerified numbered [()] s.file).map (·.version) = some 3 ∧
      (acceptedPins numbered [()] s.file () 0).length = 0) ∧
    (loadVerified numbered [()] s'.file).map (·.version) = some 2 ∧
      (acceptedPins numbered [()] s'.file () 0).length = 1 := by
  decide

end TraceCommons.Witness.Accepted

import TraceCommons.Lib.Fold
import TraceCommons.Lib.Frame
import TraceCommons.Lib.OrdMap

/-! # The encodings that identities are hashed from

The pipeline contract names a bundle, an award set and an index command by the hash of a binary
encoding. This module has the encodings, with the checks made on the way, up to the call of the
hash: two values get one encoding only if they are one value, the order inside the lists of a policy
apart. A string is its bytes; a 32-bit float is its bit pattern. -/

namespace TraceCommons.Contract

open TraceCommons.Frame List

abbrev Bytes := List Byte

/-- `String`. -/
abbrev Text := Vec Byte

instance : LinearOrder Text := LinearOrder.lift' Vec.list fun _ _ h => Vec.ext_list h

def ascii (s : String) : Bytes := s.toList.map fun c => Fin.ofNat 256 c.toNat

inductive ContractError where
  | invalidInstrumentId
  | zeroInstrumentAward
  | traceCreditOutOfRange
  | duplicateInstrumentId
  | unsupportedManifestVersion
  | missingPolicyIdentity
  | duplicatePolicyListEntry
  | invalidInstrumentDescriptor
  | traceCreditKind
  | traceCreditDecimals
  | invalidIndexCommand
  | malformedHash
  | settlementOperationMismatch
  deriving DecidableEq

theorem exists_ok_of_isOk {ε α : Type} {x : Except ε α} (h : x.isOk = true) : ∃ a, x = .ok a := by
  cases x with
  | error e => cases h
  | ok a => exact ⟨a, rfl⟩

/-! ## Spellings -/

def isAsciiLowercase (byte : Byte) : Bool := 97 ≤ byte.val && byte.val ≤ 122

def isAsciiDigit (byte : Byte) : Bool := 48 ≤ byte.val && byte.val ≤ 57

def isSeparator (byte : Byte) : Bool := byte.val = 45 || byte.val = 95 || byte.val = 46

def isSafeIdentifier (value : Bytes) : Bool :=
  !value.isEmpty && value.length ≤ 64 &&
    value.all fun byte => isAsciiLowercase byte || isAsciiDigit byte || isSeparator byte

/-- `windows(2).any`. -/
def anyWindow {α : Type} (f : α → α → Bool) : List α → Bool
  | a :: b :: l => f a b || anyWindow f (b :: l)
  | _ => false

def isNearAccountId (value : Bytes) : Bool :=
  (2 ≤ value.length && value.length ≤ 64) &&
    (value.all fun byte => isAsciiLowercase byte || isAsciiDigit byte || isSeparator byte) &&
    !value.head?.any isSeparator && !value.getLast?.any isSeparator &&
    !anyWindow (fun a b => isSeparator a && isSeparator b) value

def nearNetworks : List Bytes := [ascii "mainnet", ascii "testnet"]

def decimalValue (value : Bytes) : Nat :=
  value.foldl (fun n byte => 10 * n + (byte.val - 48)) 0

def isEvmChainId (value : Bytes) : Bool :=
  !value.head?.any (fun byte => byte.val = 48) && value.all isAsciiDigit &&
    -- `parse::<u64>` refuses no digits at all and what does not fit
    (!value.isEmpty && decimalValue value < 2 ^ 64)

def isLowerHex (value : Bytes) (len : Nat) : Bool :=
  value.length = len &&
    value.all fun byte => isAsciiDigit byte || (97 ≤ byte.val && byte.val ≤ 102)

/-- `strip_prefix`, then `is_lower_hex` on what is left. -/
def isPrefixedHex (head value : Bytes) (len : Nat) : Bool :=
  head.isPrefixOf value && isLowerHex (value.drop head.length) len

def isEvmAddress (value : Bytes) : Bool := isPrefixedHex (ascii "0x") value 40

def isSha256 (value : Bytes) : Bool := isPrefixedHex (ascii "sha256:") value 64

/-! ## Values -/

structure InstrumentId where
  text : Text
  safe : isSafeIdentifier text.list

theorem InstrumentId.ext_text {a b : InstrumentId} (h : a.text = b.text) : a = b := by
  cases b
  cases h
  rfl

instance : LinearOrder InstrumentId :=
  LinearOrder.lift' InstrumentId.text fun _ _ h => InstrumentId.ext_text h

def InstrumentId.new (value : Text) : Except ContractError InstrumentId :=
  if h : isSafeIdentifier value.list then .ok ⟨value, h⟩ else .error .invalidInstrumentId

def traceCreditInstrumentId : Bytes := ascii "trace_credit"

structure PolicyRef where
  policyId : Text
  implementationId : Text
  configurationHash : Text
  dataArtifactHashes : Vec Text
  projectionIds : Vec Text

inductive InstrumentKind where
  | nep141
  | erc20
  | creditAccount
  deriving DecidableEq

def InstrumentKind.asStr : InstrumentKind → Text
  | nep141 => ⟨ascii "nep141", by decide⟩
  | erc20 => ⟨ascii "erc20", by decide⟩
  | creditAccount => ⟨ascii "credit_account", by decide⟩

structure InstrumentDescriptor where
  kind : InstrumentKind
  network : Text
  contract : Text
  decimals : Byte

def InstrumentDescriptor.validate (d : InstrumentDescriptor) : Except ContractError Unit :=
  let located :=
    match d.kind with
    | .nep141 => nearNetworks.contains d.network.list && isNearAccountId d.contract.list
    | .erc20 => isEvmChainId d.network.list && isEvmAddress d.contract.list
    | .creditAccount => isSafeIdentifier d.network.list && isSafeIdentifier d.contract.list
  if !located || 38 < d.decimals.val then .error .invalidInstrumentDescriptor else .ok ()

structure BundleManifest where
  formatVersion : Fin (2 ^ 32)
  admission : PolicyRef
  review : PolicyRef
  score : PolicyRef
  settle : PolicyRef
  instruments : OrdMap InstrumentId InstrumentDescriptor
  /-- A map holds no more entries than a `usize` counts. -/
  instruments_short : instruments.entries.length < 2 ^ 64

/-- The nonzero amounts, with Trace Credit in the range of its ledger. -/
structure InstrumentAward where
  instrumentId : InstrumentId
  atomicUnits : Fin (2 ^ 128)
  nonzero : atomicUnits.val ≠ 0
  inRange : instrumentId.text.list = traceCreditInstrumentId → atomicUnits.val ≤ 2 ^ 63 - 1

def InstrumentAward.new (id : InstrumentId) (units : Fin (2 ^ 128)) :
    Except ContractError InstrumentAward :=
  if hzero : units.val = 0 then .error .zeroInstrumentAward
  else if hrange : id.text.list = traceCreditInstrumentId ∧ 2 ^ 63 - 1 < units.val then
    .error .traceCreditOutOfRange
  else
    .ok ⟨id, units, hzero, fun hid => Nat.le_of_not_lt fun hlt => hrange ⟨hid, hlt⟩⟩

structure InstrumentAwards where
  awards : Vec InstrumentAward
  sorted : awards.list.Pairwise fun a b => a.instrumentId < b.instrumentId

abbrev F32 := Fin (2 ^ 32)

/-- The exponent field is not all ones. -/
def F32.isFinite (x : F32) : Bool := x.val / 2 ^ 23 % 2 ^ 8 ≠ 255

structure Uuid where
  bytes : Bytes
  length_eq : bytes.length = 16

structure SealedIndexEntry where
  chunk : Fin (2 ^ 32)
  contentHash : Text
  embedding : Vec F32

structure SealedIndexCommand where
  schema : Text
  indexId : Text
  revisionId : Uuid
  projectionId : Text
  modelId : Text
  entries : Vec SealedIndexEntry

def indexCommandSchema : Bytes := ascii "trace_commons.pipeline_index_command.v1"

/-! ## Encodings -/

def encodeLen (len : Nat) : Bytes := beBytes 8 len

def encodeString (value : Text) : Bytes := encodeLen value.list.length ++ value.list

/-- `sort()` on a list of strings. -/
def sortTexts (values : Vec Text) : Vec Text :=
  ⟨values.list.insertionSort (· ≤ ·), by
    rw [(List.perm_insertionSort _ values.list).length_eq]
    exact values.short⟩

def encodeList (values : Vec Text) : Except ContractError Bytes :=
  if anyWindow (fun a b => a = b) (sortTexts values).list then .error .duplicatePolicyListEntry
  else .ok (encodeLen (sortTexts values).list.length ++ (sortTexts values).list.flatMap encodeString)

def encodePolicy (policy : PolicyRef) : Except ContractError Bytes :=
  if policy.policyId.list.isEmpty || policy.implementationId.list.isEmpty then
    .error .missingPolicyIdentity
  else do
    let dataArtifactHashes ← encodeList policy.dataArtifactHashes
    let projectionIds ← encodeList policy.projectionIds
    return encodeString policy.policyId ++ (encodeString policy.implementationId ++
      (encodeString policy.configurationHash ++ (dataArtifactHashes ++ projectionIds)))

def encodeInstrument (id : InstrumentId) (d : InstrumentDescriptor) : Except ContractError Bytes :=
  do
    d.validate
    if id.text.list = traceCreditInstrumentId ∧ d.kind ≠ .nep141 then .error .traceCreditKind
    else if id.text.list = traceCreditInstrumentId ∧ d.decimals.val ≠ 6 then
      .error .traceCreditDecimals
    else
      return encodeString id.text ++ (encodeString d.kind.asStr ++ (encodeString d.network ++
        (encodeString d.contract ++ [d.decimals])))

def encodeInstruments : List (InstrumentId × InstrumentDescriptor) → Except ContractError Bytes
  | [] => .ok []
  | (id, d) :: rest => do
    let instrument ← encodeInstrument id d
    let instruments ← encodeInstruments rest
    return instrument ++ instruments

def BundleManifest.canonicalBytes (m : BundleManifest) : Except ContractError Bytes :=
  if m.formatVersion.val ≠ 2 then .error .unsupportedManifestVersion
  else do
    let admission ← encodePolicy m.admission
    let review ← encodePolicy m.review
    let score ← encodePolicy m.score
    let settle ← encodePolicy m.settle
    let instruments ← encodeInstruments m.instruments.entries
    return ascii "trace-commons-bundle-manifest\x00" ++ (beBytes 4 m.formatVersion.val ++
      (admission ++ (review ++ (score ++ (settle ++
        (encodeLen m.instruments.entries.length ++ instruments))))))

/-- What `canonical_id` hashes. -/
def InstrumentAwards.canonicalIdPreimage (a : InstrumentAwards) : Bytes :=
  ascii "trace-commons-instrument-awards-v2\x00" ++ (encodeLen a.awards.list.length ++
    a.awards.list.flatMap fun award =>
      encodeString award.instrumentId.text ++ beBytes 16 award.atomicUnits.val)

def SealedIndexCommand.validate (c : SealedIndexCommand) : Except ContractError Unit :=
  let dimension := c.entries.list.head?.map fun entry => entry.embedding.list.length
  let valid :=
    c.schema.list = indexCommandSchema &&
    ([c.indexId, c.projectionId, c.modelId].all fun label => isSafeIdentifier label.list) &&
    dimension.any (0 < ·) &&
    !anyWindow (fun a b => !(a.chunk < b.chunk)) c.entries.list &&
    c.entries.list.all fun entry =>
      isSha256 entry.contentHash.list && some entry.embedding.list.length = dimension &&
        entry.embedding.list.all F32.isFinite
  if valid then .ok () else .error .invalidIndexCommand

def encodeEntry (entry : SealedIndexEntry) : Bytes :=
  beBytes 4 entry.chunk.val ++ (encodeString entry.contentHash ++
    (encodeLen entry.embedding.list.length ++
      entry.embedding.list.flatMap fun value => beBytes 4 value.val))

/-- What `content_hash` hashes. -/
def SealedIndexCommand.contentHashPreimage (c : SealedIndexCommand) : Except ContractError Bytes :=
  do
    c.validate
    return ascii "trace-commons-index-command\x00" ++ (encodeString c.schema ++
      (encodeString c.indexId ++ (c.revisionId.bytes ++ (encodeString c.projectionId ++
        (encodeString c.modelId ++ (encodeLen c.entries.list.length ++
          c.entries.list.flatMap encodeEntry))))))

/-! ## Award sets are sorted -/

theorem pairwise_lt_of_anyWindow {α κ : Type} [LinearOrder κ] {key : α → κ} {l : List α}
    (hsorted : l.Pairwise fun a b => key a ≤ key b)
    (hwindow : anyWindow (fun a b => key a = key b) l = false) :
    l.Pairwise fun a b => key a < key b := by
  induction l with
  | nil => exact List.Pairwise.nil
  | cons a l ih =>
    obtain ⟨ha, hl⟩ := pairwise_cons.1 hsorted
    cases l with
    | nil => exact pairwise_singleton _ _
    | cons b l =>
      simp only [anyWindow, Bool.or_eq_false_iff, decide_eq_false_iff_not] at hwindow
      have hab : key a < key b := lt_of_le_of_ne (ha b (.head _)) hwindow.1
      refine pairwise_cons.2 ⟨fun c hc => ?_, ih hl hwindow.2⟩
      rcases mem_cons.1 hc with rfl | hc
      · exact hab
      · exact lt_of_lt_of_le hab ((pairwise_cons.1 hl).1 c hc)

theorem pairwise_insertionSort_key {α κ : Type} [LinearOrder κ] (key : α → κ) (l : List α) :
    (l.insertionSort fun a b => key a ≤ key b).Pairwise fun a b => key a ≤ key b :=
  have : Std.Total fun a b => key a ≤ key b := ⟨fun _ _ => le_total _ _⟩
  have : IsTrans α fun a b => key a ≤ key b := ⟨fun _ _ _ => le_trans⟩
  pairwise_insertionSort _ l

def sortAwards (awards : List InstrumentAward) : List InstrumentAward :=
  awards.insertionSort fun a b => a.instrumentId ≤ b.instrumentId

def InstrumentAwards.new (awards : Vec InstrumentAward) : Except ContractError InstrumentAwards :=
  if h : anyWindow (fun a b => a.instrumentId = b.instrumentId) (sortAwards awards.list) then
    .error .duplicateInstrumentId
  else
    .ok {
      awards := ⟨sortAwards awards.list, by
        rw [sortAwards, (List.perm_insertionSort _ awards.list).length_eq]
        exact awards.short⟩
      sorted := pairwise_lt_of_anyWindow (pairwise_insertionSort_key _ _) (by simpa using h) }

/-! ## Frames -/

theorem framed_encodeString : Framed encodeString := by
  have hbyte : Framed fun b : Byte => [b] :=
    framed_of_length (fun _ => rfl) fun _ _ h => singleton_inj.1 h
  have heq : encodeString = encodeVec fun b : Byte => [b] := by
    funext value
    simp [encodeString, encodeLen, encodeVec]
  rw [heq]
  exact framed_encodeVec hbyte

theorem asStr_injective : Function.Injective InstrumentKind.asStr := by
  intro a b h
  cases a <;> cases b <;> first | rfl | exact absurd h (by decide)

/-- A policy with its lists sorted, as the encoding has it. -/
abbrev PolicyView := Text × Text × Text × Vec Text × Vec Text

def PolicyRef.view (p : PolicyRef) : PolicyView :=
  (p.policyId, p.implementationId, p.configurationHash, sortTexts p.dataArtifactHashes,
    sortTexts p.projectionIds)

def policyBytes (v : PolicyView) : Bytes :=
  encodeString v.1 ++ (encodeString v.2.1 ++ (encodeString v.2.2.1 ++
    (encodeVec encodeString v.2.2.2.1 ++ encodeVec encodeString v.2.2.2.2)))

theorem framed_policyBytes : Framed policyBytes := by
  have htext := framed_encodeString
  have hlist := framed_encodeVec framed_encodeString
  have hall := htext.pair (htext.pair (htext.pair (hlist.pair hlist)))
  exact hall

abbrev Instrument := InstrumentId × InstrumentDescriptor

def instrumentBytes (i : Instrument) : Bytes :=
  encodeString i.1.text ++ (encodeString i.2.kind.asStr ++ (encodeString i.2.network ++
    (encodeString i.2.contract ++ [i.2.decimals])))

theorem framed_instrumentBytes : Framed instrumentBytes := by
  have hkind := framed_encodeString.comp asStr_injective
  have hid := framed_encodeString.comp (f := InstrumentId.text) fun _ _ => InstrumentId.ext_text
  have hbyte : Framed fun b : Byte => [b] :=
    framed_of_length (fun _ => rfl) fun _ _ h => singleton_inj.1 h
  have hall := hid.pair (hkind.pair (framed_encodeString.pair (framed_encodeString.pair hbyte)))
  refine hall.comp (f := fun i : Instrument =>
    (i.1, i.2.kind, i.2.network, i.2.contract, i.2.decimals)) ?_
  rintro ⟨id, _, _, _, _⟩ ⟨_, _, _, _, _⟩ h
  obtain ⟨_, _, _, _, _⟩ := h
  rfl

/-! ## What an accepted value is encoded to -/

variable {bytes : Bytes}

theorem encodeList_ok {values : Vec Text} (h : encodeList values = .ok bytes) :
    bytes = encodeVec encodeString (sortTexts values) := by
  unfold encodeList at h
  split at h
  · cases h
  · cases h
    rfl

theorem encodePolicy_ok {policy : PolicyRef} (h : encodePolicy policy = .ok bytes) :
    bytes = policyBytes policy.view := by
  unfold encodePolicy at h
  split at h
  · cases h
  obtain ⟨_, hhashes, h⟩ := bind_eq_ok.1 h
  obtain ⟨_, hids, h⟩ := bind_eq_ok.1 h
  cases h
  rw [encodeList_ok hhashes, encodeList_ok hids]
  rfl

theorem encodeInstrument_ok {id : InstrumentId} {d : InstrumentDescriptor}
    (h : encodeInstrument id d = .ok bytes) : bytes = instrumentBytes (id, d) := by
  obtain ⟨_, _, h⟩ := bind_eq_ok.1 h
  split at h
  · cases h
  split at h
  · cases h
  · cases h
    rfl

theorem encodeInstruments_ok {l : List Instrument} (h : encodeInstruments l = .ok bytes) :
    bytes = l.flatMap instrumentBytes := by
  induction l generalizing bytes with
  | nil =>
    cases h
    rfl
  | cons i l ih =>
    obtain ⟨_, hfirst, h⟩ := bind_eq_ok.1 h
    obtain ⟨_, hrest, h⟩ := bind_eq_ok.1 h
    cases h
    rw [flatMap_cons, encodeInstrument_ok hfirst, ih hrest]

/-- What an accepted manifest is encoded to after the domain and the version, which are the same
for all of them. -/
abbrev ManifestView :=
  PolicyView × PolicyView × PolicyView × PolicyView × Vec Instrument

def BundleManifest.view (m : BundleManifest) : ManifestView :=
  (m.admission.view, m.review.view, m.score.view, m.settle.view,
    ⟨m.instruments.entries, m.instruments_short⟩)

def manifestBytes (v : ManifestView) : Bytes :=
  policyBytes v.1 ++ (policyBytes v.2.1 ++ (policyBytes v.2.2.1 ++ (policyBytes v.2.2.2.1 ++
    encodeVec instrumentBytes v.2.2.2.2)))

theorem framed_manifestBytes : Framed manifestBytes := by
  have hpolicy := framed_policyBytes
  have hinstruments := framed_encodeVec framed_instrumentBytes
  have hall := hpolicy.pair (hpolicy.pair (hpolicy.pair (hpolicy.pair hinstruments)))
  exact hall

variable {m : BundleManifest}

theorem canonicalBytes_ok (h : m.canonicalBytes = .ok bytes) :
    m.formatVersion.val = 2 ∧ bytes =
      ascii "trace-commons-bundle-manifest\x00" ++ (beBytes 4 2 ++ manifestBytes m.view) := by
  unfold BundleManifest.canonicalBytes at h
  split at h
  · cases h
  rename_i hversion
  have hversion := Decidable.not_not.1 hversion
  obtain ⟨_, hadmission, h⟩ := bind_eq_ok.1 h
  obtain ⟨_, hreview, h⟩ := bind_eq_ok.1 h
  obtain ⟨_, hscore, h⟩ := bind_eq_ok.1 h
  obtain ⟨_, hsettle, h⟩ := bind_eq_ok.1 h
  obtain ⟨_, hinstruments, h⟩ := bind_eq_ok.1 h
  cases h
  rw [encodePolicy_ok hadmission, encodePolicy_ok hreview, encodePolicy_ok hscore,
    encodePolicy_ok hsettle, encodeInstruments_ok hinstruments, hversion]
  exact ⟨rfl, rfl⟩

/-! ## Equal up to order -/

theorem sortTexts_eq_iff {v w : Vec Text} : sortTexts v = sortTexts w ↔ v.list.Perm w.list := by
  have hv := perm_insertionSort (· ≤ ·) v.list
  have hw := perm_insertionSort (· ≤ ·) w.list
  constructor
  · intro h
    have hlist : v.list.insertionSort (· ≤ ·) = w.list.insertionSort (· ≤ ·) :=
      congrArg Vec.list h
    exact hv.symm.trans (hlist ▸ hw)
  · intro h
    refine Vec.ext_list (List.Perm.eq_of_pairwise (fun a b _ _ hab hba => le_antisymm hab hba)
      (pairwise_insertionSort _ _) (pairwise_insertionSort _ _) ?_)
    exact hv.trans (h.trans hw.symm)

/-- The same policy, but for the order of its lists. -/
structure PolicyRef.SameUpToOrder (p q : PolicyRef) : Prop where
  policyId : p.policyId = q.policyId
  implementationId : p.implementationId = q.implementationId
  configurationHash : p.configurationHash = q.configurationHash
  dataArtifactHashes : p.dataArtifactHashes.list.Perm q.dataArtifactHashes.list
  projectionIds : p.projectionIds.list.Perm q.projectionIds.list

theorem PolicyRef.view_eq_iff {p q : PolicyRef} : p.view = q.view ↔ p.SameUpToOrder q := by
  simp only [PolicyRef.view, Prod.mk.injEq, sortTexts_eq_iff]
  exact ⟨fun ⟨h1, h2, h3, h4, h5⟩ => ⟨h1, h2, h3, h4, h5⟩,
    fun ⟨h1, h2, h3, h4, h5⟩ => ⟨h1, h2, h3, h4, h5⟩⟩

structure BundleManifest.SameUpToOrder (m n : BundleManifest) : Prop where
  formatVersion : m.formatVersion = n.formatVersion
  admission : m.admission.SameUpToOrder n.admission
  review : m.review.SameUpToOrder n.review
  score : m.score.SameUpToOrder n.score
  settle : m.settle.SameUpToOrder n.settle
  instruments : m.instruments = n.instruments

theorem BundleManifest.view_eq_iff {n : BundleManifest} (h : m.formatVersion = n.formatVersion) :
    m.view = n.view ↔ m.SameUpToOrder n := by
  have hinstruments : (⟨m.instruments.entries, m.instruments_short⟩ : Vec Instrument) =
      ⟨n.instruments.entries, n.instruments_short⟩ ↔ m.instruments = n.instruments := by
    rw [Vec.mk.injEq]
    refine ⟨fun h => ?_, congrArg _⟩
    exact OrdMap.ext_get? fun id => congrArg _ h
  simp only [BundleManifest.view, Prod.mk.injEq, PolicyRef.view_eq_iff, hinstruments]
  exact ⟨fun ⟨h1, h2, h3, h4, h5⟩ => ⟨h, h1, h2, h3, h4, h5⟩,
    fun ⟨_, h1, h2, h3, h4, h5⟩ => ⟨h1, h2, h3, h4, h5⟩⟩

theorem canonicalBytes_eq_iff {n : BundleManifest} {x y : Bytes} (hm : m.canonicalBytes = .ok x)
    (hn : n.canonicalBytes = .ok y) : x = y ↔ m.SameUpToOrder n := by
  obtain ⟨hmversion, rfl⟩ := canonicalBytes_ok hm
  obtain ⟨hnversion, rfl⟩ := canonicalBytes_ok hn
  rw [append_cancel_left_eq, append_cancel_left_eq, framed_manifestBytes.injective.eq_iff]
  exact BundleManifest.view_eq_iff (Fin.ext (hmversion.trans hnversion.symm))

/-! ## Award sets and index commands -/

theorem canonicalIdPreimage_injective : Function.Injective InstrumentAwards.canonicalIdPreimage := by
  intro a b h
  have hamount : Framed fun n : Fin (2 ^ 128) => beBytes 16 n.val :=
    framed_beBytes 16 (by decide)
  have hid := framed_encodeString.comp (f := InstrumentId.text) fun _ _ => InstrumentId.ext_text
  have haward := (hid.pair hamount).comp
    (f := fun award : InstrumentAward => (award.instrumentId, award.atomicUnits)) (by
      rintro ⟨id, _, _, _⟩ ⟨_, _, _, _⟩ heq
      cases heq
      rfl)
  have hawards := (framed_encodeVec haward).injective (append_cancel_left h)
  cases b
  cases hawards
  rfl

theorem framed_encodeEntry : Framed encodeEntry := by
  have hword : Framed fun n : Fin (2 ^ 32) => beBytes 4 n.val := framed_beBytes 4 (by decide)
  have hall := hword.pair (framed_encodeString.pair (framed_encodeVec hword))
  refine hall.comp (f := fun entry : SealedIndexEntry =>
    (entry.chunk, entry.contentHash, entry.embedding)) ?_
  rintro ⟨_, _, _⟩ ⟨_, _, _⟩ h
  cases h
  rfl

def commandBytes (c : SealedIndexCommand) : Bytes :=
  encodeString c.schema ++ (encodeString c.indexId ++ (c.revisionId.bytes ++
    (encodeString c.projectionId ++ (encodeString c.modelId ++ encodeVec encodeEntry c.entries))))

theorem framed_commandBytes : Framed commandBytes := by
  have huuid : Framed Uuid.bytes := framed_of_length Uuid.length_eq (by
    rintro ⟨_, _⟩ ⟨_, _⟩ h
    cases h
    rfl)
  have htext := framed_encodeString
  have hall := htext.pair (htext.pair (huuid.pair (htext.pair (htext.pair
    (framed_encodeVec framed_encodeEntry)))))
  refine hall.comp (f := fun c : SealedIndexCommand =>
    (c.schema, c.indexId, c.revisionId, c.projectionId, c.modelId, c.entries)) ?_
  rintro ⟨_, _, _, _, _, _⟩ ⟨_, _, _, _, _, _⟩ h
  cases h
  rfl

theorem contentHashPreimage_ok {c : SealedIndexCommand} (h : c.contentHashPreimage = .ok bytes) :
    bytes = ascii "trace-commons-index-command\x00" ++ commandBytes c := by
  obtain ⟨_, _, h⟩ := bind_eq_ok.1 h
  cases h
  rfl

/-- Values with one encoding are one value. -/
theorem canonical_encodings_injective :
    (∀ (m n : BundleManifest) (x y : Bytes),
      m.canonicalBytes = .ok x → n.canonicalBytes = .ok y → (x = y ↔ m.SameUpToOrder n)) ∧
    (∀ a b : InstrumentAwards, a.canonicalIdPreimage = b.canonicalIdPreimage → a = b) ∧
    (∀ (c d : SealedIndexCommand) (x : Bytes),
      c.contentHashPreimage = .ok x → d.contentHashPreimage = .ok x → c = d) := by
  refine ⟨fun m n x y hm hn => canonicalBytes_eq_iff hm hn,
    fun a b h => canonicalIdPreimage_injective h, ?_⟩
  intro c d x hc hd
  have heq := (contentHashPreimage_ok hc).symm.trans (contentHashPreimage_ok hd)
  exact framed_commandBytes.injective (append_cancel_left heq)

def textOf (bytes : Bytes) (h : bytes.length < 2 ^ 64) : Text := ⟨bytes, h⟩

/-- A policy with two projections, in the order given. -/
def samplePolicy (first second : Byte) : PolicyRef where
  policyId := textOf (ascii "score") (by decide)
  implementationId := textOf (ascii "score-v1") (by decide)
  configurationHash := textOf [] (by decide)
  dataArtifactHashes := ⟨[], by decide⟩
  projectionIds := ⟨[textOf [first] (by simp), textOf [second] (by simp)], by simp⟩

def sampleId : InstrumentId := ⟨textOf (ascii "trace_credit") (by decide), by decide⟩

def sampleManifest (first second : Byte) : BundleManifest where
  formatVersion := 2
  admission := samplePolicy 97 98
  review := samplePolicy 97 98
  score := samplePolicy first second
  settle := samplePolicy 97 98
  instruments := {
    entries := [(sampleId, {
      kind := .nep141
      network := textOf (ascii "testnet") (by decide)
      contract := textOf (ascii "credit.near") (by decide)
      decimals := 6 })]
    sorted := List.pairwise_singleton _ _ }
  instruments_short := by simp

def sampleAwards : InstrumentAwards where
  awards := ⟨[⟨sampleId, 5, by decide, by decide⟩], by simp⟩
  sorted := List.pairwise_singleton _ _

def sampleCommand : SealedIndexCommand where
  schema := textOf indexCommandSchema (by decide)
  indexId := textOf (ascii "novelty") (by decide)
  revisionId := ⟨List.replicate 16 7, by decide⟩
  projectionId := textOf (ascii "summary") (by decide)
  modelId := textOf (ascii "model") (by decide)
  entries := ⟨[{
    chunk := 3
    contentHash := textOf (ascii "sha256:" ++ List.replicate 64 48) (by decide)
    embedding := ⟨[0, 1], by simp⟩ }], by simp⟩

/-- Two projections the other way round give one encoding; an award set and a command are
determined by theirs. -/
theorem canonical_encodings_injective_reordered :
    (∃ x y, (sampleManifest 97 98).canonicalBytes = .ok x ∧
      (sampleManifest 98 97).canonicalBytes = .ok y ∧
      (x = y ↔ (sampleManifest 97 98).SameUpToOrder (sampleManifest 98 97))) ∧
    (∀ b, sampleAwards.canonicalIdPreimage = b.canonicalIdPreimage → sampleAwards = b) ∧
    ∃ x, sampleCommand.contentHashPreimage = .ok x ∧
      ∀ d : SealedIndexCommand, d.contentHashPreimage = .ok x → sampleCommand = d := by
  obtain ⟨x, hx⟩ : ∃ x, (sampleManifest 97 98).canonicalBytes = .ok x :=
    exists_ok_of_isOk (by decide +kernel)
  obtain ⟨y, hy⟩ : ∃ y, (sampleManifest 98 97).canonicalBytes = .ok y :=
    exists_ok_of_isOk (by decide +kernel)
  obtain ⟨z, hz⟩ : ∃ z, sampleCommand.contentHashPreimage = .ok z :=
    exists_ok_of_isOk (by decide +kernel)
  exact ⟨⟨x, y, hx, hy, canonical_encodings_injective.1 _ _ x y hx hy⟩,
    canonical_encodings_injective.2.1 sampleAwards,
    ⟨z, hz, fun d hd => canonical_encodings_injective.2.2 _ d z hz hd⟩⟩

end TraceCommons.Contract

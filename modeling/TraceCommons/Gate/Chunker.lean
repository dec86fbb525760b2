import Mathlib

/-! # Chunks of a trace

The gate scores a trace in bounded chunks. `chunkEvents` packs rendered events into chunks, splits
an event over the maximum into windows, and keeps a strided selection under the cap. Each char has
an author kind, carried as spans that tile the text: what a list of spans stands for is `kinds`, one
kind a char, and each function on spans is a function on that list. -/

namespace TraceCommons.Gate.Chunker

open List Nat

inductive AuthorKind where
  | agentProse
  | toolResult
  | other
  deriving DecidableEq

structure AuthorSpan where
  start : Nat
  len : Nat
  kind : AuthorKind
  deriving DecidableEq

/-- A text with its spans: a rendered event, or what a chunk is packed from. -/
structure RenderedEvent where
  text : List Char
  spans : List AuthorSpan
  deriving DecidableEq

structure ChunkerConfig where
  targetTokens : Nat
  maxTokens : Nat
  chunkCap : Nat

def usizeMax : Nat := 2 ^ 64 - 1

def u32Max : Nat := 2 ^ 32 - 1

def approxCharsPerToken : Nat := 4

/-- A budget of tokens in chars: a saturating product, and never zero. -/
def budgetChars (tokens : Nat) : Nat := max (min (tokens * approxCharsPerToken) usizeMax) 1

def ChunkerConfig.targetChars (cfg : ChunkerConfig) : Nat := budgetChars cfg.targetTokens

def ChunkerConfig.maxChars (cfg : ChunkerConfig) : Nat := budgetChars cfg.maxTokens

/-! ## Spans -/

def pushSpan (spans : List AuthorSpan) (len : Nat) (kind : AuthorKind) : List AuthorSpan :=
  let len := min len u32Max
  if len = 0 then spans
  else
    match spans.getLast? with
    | none => [⟨0, len, kind⟩]
    | some last =>
      if last.kind = kind then
        spans.dropLast ++ [{ last with len := min (last.len + len) u32Max }]
      else spans ++ [⟨min (last.start + last.len) u32Max, len, kind⟩]

def sliceSpan (start stop : Nat) (out : List AuthorSpan) (s : AuthorSpan) : List AuthorSpan :=
  let lo := max s.start start
  let hi := min (s.start + s.len) stop
  if lo < hi then pushSpan out (hi - lo) s.kind else out

def sliceSpans (spans : List AuthorSpan) (start len : Nat) : List AuthorSpan :=
  spans.foldl (sliceSpan start (start + len)) []

/-- The kind of each char. -/
def kinds (spans : List AuthorSpan) : List AuthorKind :=
  spans.flatMap fun s => List.replicate s.len s.kind

/-- Each span starts where the one before it ends, the first one at `n`. -/
def Adjacent : Nat → List AuthorSpan → Prop
  | _, [] => True
  | n, s :: l => s.start = n ∧ Adjacent (n + s.len) l

/-- Adjacent spans without an empty one that stand for `ks`. -/
structure Runs (spans : List AuthorSpan) (ks : List AuthorKind) : Prop where
  adjacent : Adjacent 0 spans
  pos : ∀ s ∈ spans, 0 < s.len
  reads : kinds spans = ks

section spans

variable {spans l l' : List AuthorSpan} {ks : List AuthorKind} {n start stop : Nat}

@[simp] theorem kinds_nil : kinds [] = [] := rfl

@[simp] theorem kinds_cons (s : AuthorSpan) : kinds (s :: l) = .replicate s.len s.kind ++ kinds l :=
  flatMap_cons

@[simp] theorem kinds_append : kinds (l ++ l') = kinds l ++ kinds l' := flatMap_append

theorem adjacent_append :
    Adjacent n (l ++ l') ↔ Adjacent n l ∧ Adjacent (n + (kinds l).length) l' := by
  induction l generalizing n with
  | nil => simp [Adjacent]
  | cons s l ih => simp [Adjacent, ih, add_assoc, and_assoc]

theorem Runs.nil : Runs [] [] := ⟨trivial, nofun, rfl⟩

theorem Runs.push (h : Runs spans ks) {k : AuthorKind} (hn : ks.length + n < 2 ^ 32) :
    Runs (pushSpan spans n k) (ks ++ .replicate n k) := by
  have hmin : min n u32Max = n := by unfold u32Max; omega
  obtain ⟨hadj, hpos, rfl⟩ := h
  unfold pushSpan
  rw [hmin]
  by_cases h0 : n = 0
  · simpa [h0] using ⟨hadj, hpos, rfl⟩
  rcases eq_nil_or_concat' spans with rfl | ⟨_, last, rfl⟩
  · simpa [h0] using ⟨⟨rfl, trivial⟩, by simp; omega, by simp⟩
  obtain ⟨hinit, hstart, -⟩ := adjacent_append.1 hadj
  simp only [kinds_append, kinds_cons, length_append, length_replicate] at hn hstart
  obtain ⟨hi, hlast⟩ := forall_mem_append.1 hpos
  rw [forall_mem_singleton] at hlast
  simp only [if_neg h0, getLast?_append, getLast?_singleton, Option.some_or, dropLast_concat]
  split
  next hk =>
    have hsum : min (last.len + n) u32Max = last.len + n := by unfold u32Max; omega
    rw [hsum]
    refine ⟨adjacent_append.2 ⟨hinit, by simpa using hstart, trivial⟩, ?_, ?_⟩
    · exact forall_mem_append.2
        ⟨hi, forall_mem_singleton.2 (Nat.add_pos_left hlast n)⟩
    · simp [hk]
  · have hsum : min (last.start + last.len) u32Max = last.start + last.len := by
      unfold u32Max; omega
    rw [hsum]
    refine ⟨adjacent_append.2 ⟨hadj, ?_, trivial⟩, ?_, by simp⟩
    · simp [hstart]
    · exact forall_mem_append.2
        ⟨hpos, forall_mem_singleton.2 (pos_of_ne_zero h0)⟩

/-- Pushing all spans of `l` appends their kinds. -/
theorem Runs.pushAll (h : Runs spans ks) (hn : ks.length + (kinds l).length < 2 ^ 32) :
    Runs (l.foldl (fun out s => pushSpan out s.len s.kind) spans) (ks ++ kinds l) := by
  induction l generalizing spans ks with
  | nil => simpa using h
  | cons s l ih =>
    simp only [kinds_cons, length_append, length_replicate] at hn ⊢
    rw [← append_assoc]
    exact ih (h.push (by omega)) (by simp; omega)

theorem Runs.slice (h : Runs spans ks) (hadj : Adjacent n l)
    (hn : ks.length + (kinds l).length < 2 ^ 32) :
    Runs (l.foldl (sliceSpan start stop) spans)
      (ks ++ ((kinds l).take (stop - n)).drop (start - n)) := by
  induction l generalizing spans ks n with
  | nil => simpa using h
  | cons s l ih =>
    obtain ⟨rfl, hadj⟩ := hadj
    simp only [kinds_cons, length_append, length_replicate] at hn
    -- what the span itself adds
    have hs : Runs (sliceSpan start stop spans s) (ks ++ .replicate
        (min (s.start + s.len) stop - max s.start start) s.kind) := by
      simp only [sliceSpan]
      split
      · exact h.push (by omega)
      next hle => simpa [Nat.sub_eq_zero_of_le (Nat.not_lt.1 hle)] using h
    have hrest := ih hs hadj (by simp; omega)
    rw [foldl_cons]
    convert hrest using 1
    rw [kinds_cons, take_append, drop_append, append_assoc]
    simp only [take_replicate, drop_replicate, length_replicate]
    congr 2
    · congr 1; omega
    rcases lt_or_ge stop (s.start + s.len) with hlt | _
    · simp [Nat.sub_eq_zero_of_le (show stop - s.start ≤ s.len by omega),
        Nat.sub_eq_zero_of_le hlt.le]
    · congr 1
      · omega
      · congr 1; omega

end spans

/-- The spans of the text tile it. -/
def RenderedEvent.Tiled (e : RenderedEvent) : Prop :=
  Adjacent 0 e.spans ∧ (kinds e.spans).length = e.text.length

/-- Each char of the text with its kind. -/
def RenderedEvent.marked (e : RenderedEvent) : List (Char × AuthorKind) :=
  e.text.zip (kinds e.spans)

/-! ## Rendered events -/

def AuthorKind.ofEventType (eventType : String) : AuthorKind :=
  if eventType = "assistant_message" then .agentProse
  else if eventType = "tool_result" then .toolResult
  else .other

def renderEventText (eventType : String) (toolName : Option String) (content : List Char) :
    List Char :=
  match toolName.filter (· ≠ "") with
  | some t => eventType.toList ++ " (".toList ++ t.toList ++ "): ".toList ++ content ++ "\n".toList
  | none => eventType.toList ++ ": ".toList ++ content ++ "\n".toList

def renderEvent (eventType : String) (toolName : Option String) (content : List Char) :
    RenderedEvent :=
  let text := renderEventText eventType toolName content
  let spans := pushSpan [] (text.length - content.length - 1) .other
  let spans := pushSpan spans content.length (.ofEventType eventType)
  ⟨text, pushSpan spans 1 .other⟩

theorem renderEvent_tiled {eventType : String} {toolName : Option String} {content : List Char}
    (hlen : (renderEventText eventType toolName content).length < 2 ^ 32) :
    (renderEvent eventType toolName content).Tiled := by
  have hfits : content.length + 1 ≤ (renderEventText eventType toolName content).length := by
    unfold renderEventText
    split <;> simp <;> omega
  simp only [renderEvent]
  generalize renderEventText _ _ _ = text at hlen hfits
  have hhead := Runs.nil.push (n := text.length - content.length - 1) (k := .other)
    (by simp; omega)
  have hbody := hhead.push (n := content.length) (k := .ofEventType eventType) (by simp; omega)
  have hruns := hbody.push (n := 1) (k := .other) (by simp; omega)
  refine ⟨hruns.adjacent, ?_⟩
  rw [hruns.reads]
  simp
  omega

/-! ## Windows of an event over the maximum -/

/-- One char of `splitFixedCharWindows`: the windows so far and the open one, whose length is the
loop's `count`. -/
def splitChar (windowChars : Nat) (st : List (List Char) × List Char) (ch : Char) :
    List (List Char) × List Char :=
  let current := st.2 ++ [ch]
  if current.length = windowChars then (st.1 ++ [current], []) else (st.1, current)

def splitFixedCharWindows (text : List Char) (windowChars : Nat) : List (List Char) :=
  let (out, current) := text.foldl (splitChar (max windowChars 1)) ([], [])
  let out := if current = [] then out else out ++ [current]
  if out = [] then [[]] else out

/-- The chunks of an event's windows, from char `start` on. -/
def windowChunks (spans : List AuthorSpan) : Nat → List (List Char) → List RenderedEvent
  | _, [] => []
  | start, w :: ws =>
    ⟨w, sliceSpans spans start w.length⟩ :: windowChunks spans (start + w.length) ws

/-- A chunk of at most `m` chars whose spans tile it, none of them empty. -/
structure Sound (m : Nat) (c : RenderedEvent) : Prop where
  size : c.text.length ≤ m
  runs : Runs c.spans (kinds c.spans)
  length : (kinds c.spans).length = c.text.length

theorem splitFixedCharWindows_spec {text : List Char} (hne : text ≠ []) (n : Nat) :
    (splitFixedCharWindows text n).flatten = text ∧
      ∀ w ∈ splitFixedCharWindows text n, w ≠ [] ∧ w.length ≤ max n 1 := by
  have hfold : ∀ (text : List Char) (st : List (List Char) × List Char),
      (∀ w ∈ st.1, w ≠ [] ∧ w.length ≤ max n 1) → st.2.length < max n 1 →
      let st' := text.foldl (splitChar (max n 1)) st
      st'.1.flatten ++ st'.2 = st.1.flatten ++ st.2 ++ text ∧
        (∀ w ∈ st'.1, w ≠ [] ∧ w.length ≤ max n 1) ∧ st'.2.length < max n 1 := by
    intro text
    induction text with
    | nil => exact fun st hout hcur => ⟨by simp, hout, hcur⟩
    | cons ch text ih =>
      intro st hout _
      simp only [foldl_cons, splitChar]
      split
      next hfull =>
        obtain ⟨htext, hrest⟩ := ih (st.1 ++ [st.2 ++ [ch]], [])
          (forall_mem_append.2 ⟨hout, forall_mem_singleton.2 ⟨by simp, hfull.le⟩⟩)
          (by simp)
        exact ⟨by simpa using htext, hrest⟩
      next hopen =>
        have hlen : (st.2 ++ [ch]).length ≠ max n 1 := hopen
        obtain ⟨htext, hrest⟩ := ih (st.1, st.2 ++ [ch]) hout (by simp at hlen ⊢; omega)
        exact ⟨by simpa using htext, hrest⟩
  obtain ⟨htext, hout, hcur⟩ := hfold _ ([], []) nofun (by simp)
  unfold splitFixedCharWindows
  generalize text.foldl _ _ = st at htext hout hcur
  obtain ⟨out, current⟩ := st
  subst htext
  by_cases hc : current = []
  · subst hc
    have ho : out ≠ [] := by rintro rfl; exact hne rfl
    simpa [ho] using hout
  · simp only [if_neg hc, append_eq_nil_iff, cons_ne_self, and_false]
    exact ⟨by simp, forall_mem_append.2 ⟨hout, forall_mem_singleton.2 ⟨hc, hcur.le⟩⟩⟩

/-- The windows' chunks are sound, and have the event's text and kinds. -/
theorem windowChunks_spec {e : RenderedEvent} (he : e.Tiled) (hlen : e.text.length < 2 ^ 32)
    {m : Nat} (start : Nat) {ws : List (List Char)} (hws : e.text.drop start = ws.flatten)
    (hsize : ∀ w ∈ ws, w ≠ [] ∧ w.length ≤ m) :
    (windowChunks e.spans start ws).flatMap (·.text) = ws.flatten ∧
      (windowChunks e.spans start ws).flatMap (kinds ·.spans) = (kinds e.spans).drop start ∧
      ∀ c ∈ windowChunks e.spans start ws, c.text ≠ [] ∧ Sound m c := by
  induction ws generalizing start with
  | nil =>
    have : e.text.length ≤ start := drop_eq_nil_iff.1 hws
    exact ⟨rfl, (drop_eq_nil_iff.2 (he.2.trans_le this)).symm, nofun⟩
  | cons w ws ih =>
    rw [flatten_cons] at hws
    have hrest : e.text.drop (start + w.length) = ws.flatten := by
      rw [← drop_drop, hws, drop_left]
    have hfits : w.length ≤ e.text.length - start := by
      rw [← length_drop, hws, length_append]
      exact Nat.le_add_right ..
    obtain ⟨htext, hkinds, hall⟩ := ih _ hrest fun x hx => hsize x (.tail _ hx)
    have hruns : Runs (sliceSpans e.spans start w.length)
        (((kinds e.spans).take (start + w.length)).drop start) := by
      simpa [sliceSpans] using Runs.nil.slice he.1 (by simpa [he.2] using hlen)
    have hread := hruns.reads
    rw [← take_drop] at hread
    refine ⟨by simp [windowChunks, htext], ?_, ?_⟩
    · simp only [windowChunks, flatMap_cons, hread, hkinds, ← drop_drop]
      exact take_append_drop ..
    rw [windowChunks, forall_mem_cons]
    refine ⟨⟨(hsize w (.head _)).1, (hsize w (.head _)).2, ?_, ?_⟩, hall⟩
    · exact hruns.reads.symm ▸ hruns
    · have := he.2
      simp only [hread, length_take, length_drop]
      omega

/-! ## Packing -/

/-- The chunks packed so far and the open one, whose length is the loop's `current_chars`. -/
structure Packing where
  packed : List RenderedEvent
  current : RenderedEvent

def Packing.flush (p : Packing) : Packing := ⟨p.packed ++ [p.current], ⟨[], []⟩⟩

/-- `flush`, of a chunk that has text. -/
def Packing.close (p : Packing) : Packing := if p.current.text = [] then p else p.flush

/-- One event of the loop of `chunkEvents`. -/
def Packing.pack (target max : Nat) (p : Packing) (event : RenderedEvent) : Packing :=
  if max < event.text.length then
    { p.close with packed := p.close.packed ++
        windowChunks event.spans 0 (splitFixedCharWindows event.text target) }
  else
    let p := if p.current.text ≠ [] ∧ target < p.current.text.length + event.text.length
      then p.flush else p
    { p with current := ⟨p.current.text ++ event.text,
        event.spans.foldl (fun out s => pushSpan out s.len s.kind) p.current.spans⟩ }

/-- What `chunkEvents` packs before the cap. -/
def packEvents (events : List RenderedEvent) (cfg : ChunkerConfig) : List RenderedEvent :=
  let p := events.foldl (Packing.pack cfg.targetChars cfg.maxChars) ⟨[], ⟨[], []⟩⟩
  if p.close.packed = [] then [⟨[], []⟩] else p.close.packed

def chars (l : List RenderedEvent) : Nat := (l.flatMap (·.text)).length

/-- No chunk ends inside an event of at most `small` chars. -/
def Unsplit (small : Nat) (events packed : List RenderedEvent) : Prop :=
  ∀ pre e post, events = pre ++ e :: post → e.text.length ≤ small → ∀ before, before <+: packed →
    chars before ≤ chars pre ∨ chars pre + e.text.length ≤ chars before

section packing

variable {small m target : Nat} {seen packed packed' : List RenderedEvent} {e : RenderedEvent}

@[simp] theorem chars_nil : chars [] = 0 := rfl

@[simp] theorem chars_append (l l' : List RenderedEvent) :
    chars (l ++ l') = chars l + chars l' := by
  simp [chars]

@[simp] theorem chars_cons (c : RenderedEvent) (l : List RenderedEvent) :
    chars (c :: l) = c.text.length + chars l := by
  simp [chars]

/-- Chunks may end where the events seen end, or after it. -/
theorem Unsplit.cut (h : Unsplit small seen packed)
    (hnew : ∀ before, before <+: packed' → before <+: packed ∨ chars seen ≤ chars before) :
    Unsplit small seen packed' := by
  intro pre x post hsplit hx before hbefore
  rcases hnew _ hbefore with hold | hge
  · exact h pre x _ hsplit hx _ hold
  · simp only [hsplit, chars_append, chars_cons] at hge
    exact .inr (by omega)

/-- A small event comes after all chunks that are closed. -/
theorem Unsplit.event (h : Unsplit small seen packed)
    (he : e.text.length ≤ small → chars packed ≤ chars seen) :
    Unsplit small (seen ++ [e]) packed := by
  intro pre x post hsplit hx before hbefore
  rcases eq_nil_or_concat' post with rfl | ⟨post, y, rfl⟩
  · obtain ⟨rfl, hxe⟩ := append_inj' hsplit rfl
    obtain rfl := singleton_injective hxe
    obtain ⟨t, rfl⟩ := hbefore
    have hall := he hx
    rw [chars_append] at hall
    exact .inl (by omega)
  · rw [← cons_append, ← append_assoc] at hsplit
    exact h pre x _ (append_inj' hsplit rfl).1 hx _ hbefore

/-- What the loop keeps, `seen` being the events packed. -/
structure Packing.Inv (small m : Nat) (seen : List RenderedEvent) (p : Packing) : Prop where
  texts : p.packed.flatMap (·.text) ++ p.current.text = seen.flatMap (·.text)
  kinds : p.packed.flatMap (kinds ·.spans) ++ kinds p.current.spans = seen.flatMap (kinds ·.spans)
  packed : ∀ c ∈ p.packed, c.text ≠ [] ∧ Sound m c
  current : Sound m p.current
  unsplit : Unsplit small seen p.packed

namespace Packing.Inv

variable {p : Packing}

theorem chars (h : p.Inv small m seen) :
    chars p.packed + p.current.text.length = chars seen := by
  have := congrArg length h.texts
  rwa [length_append] at this

theorem sound_nil : Sound m ⟨[], []⟩ := ⟨zero_le _, .nil, rfl⟩

theorem flush (h : p.Inv small m seen) (hne : p.current.text ≠ []) : p.flush.Inv small m seen := by
  refine ⟨by simp [Packing.flush, h.texts], by simp [Packing.flush, h.kinds], ?_, sound_nil,
    h.unsplit.cut fun before hbefore => ?_⟩
  · exact forall_mem_append.2 ⟨h.packed, forall_mem_singleton.2 ⟨hne, h.current⟩⟩
  · rcases prefix_concat_iff.1 hbefore with rfl | hold
    · exact .inr (by simp [← h.chars])
    · exact .inl hold

theorem close (h : p.Inv small m seen) :
    p.close.Inv small m seen ∧ p.close.current.text = [] ∧
      Chunker.kinds p.close.current.spans = [] := by
  unfold Packing.close
  split
  next hnil => exact ⟨h, hnil, length_eq_zero_iff.1 (by rw [h.current.length, hnil]; rfl)⟩
  next hne => exact ⟨h.flush hne, rfl, rfl⟩

theorem pack (h : p.Inv small (max target small) seen) (ht : 0 < target) (he : e.Tiled)
    (hn : Chunker.chars seen + e.text.length < 2 ^ 32) :
    (p.pack target small e).Inv small (max target small) (seen ++ [e]) := by
  unfold Packing.pack
  split
  next hlarge =>
    obtain ⟨h, hnil, hk0⟩ := h.close
    have hne : e.text ≠ [] := ne_nil_of_length_pos (zero_lt_of_lt hlarge)
    obtain ⟨hflat, hwin⟩ := splitFixedCharWindows_spec hne target
    obtain ⟨htext, hkinds, hall⟩ := windowChunks_spec (m := max target _) he (by omega)
      0 hflat.symm fun w hw => ⟨(hwin w hw).1, (hwin w hw).2.trans (by omega)⟩
    have htexts := h.texts
    have hks := h.kinds
    have hchars := h.chars
    simp only [hnil, hk0, append_nil, length_nil, add_zero] at htexts hks hchars
    refine ⟨?_, ?_, ?_, h.current, (h.unsplit.cut fun before hbefore => ?_).event
      fun hsmall => absurd hsmall (not_le.2 hlarge)⟩
    · simp [hnil, htexts, htext, hflat]
    · simp [hk0, hks, hkinds]
    · exact forall_mem_append.2 ⟨h.packed, hall⟩
    · rcases prefix_or_prefix_of_prefix hbefore (prefix_append ..) with hold | ⟨t, rfl⟩
      · exact .inl hold
      · exact .inr (by simp [hchars])
  next hsmall =>
    have hp : ∃ q : Packing, q.Inv small (max target small) seen ∧
        q = (if p.current.text ≠ [] ∧ target < p.current.text.length + e.text.length then p.flush
          else p) ∧ (q.current.text ≠ [] → q.current.text.length + e.text.length ≤ target) := by
      by_cases hfull : p.current.text ≠ [] ∧ target < p.current.text.length + e.text.length
      · exact ⟨_, h.flush hfull.1, (if_pos hfull).symm, absurd rfl⟩
      · exact ⟨p, h, (if_neg hfull).symm, fun hne => not_lt.1 fun hlt => hfull ⟨hne, hlt⟩⟩
    obtain ⟨q, hq, heq, hroom⟩ := hp
    simp only [← heq]
    have hchars := hq.chars
    have hlen := hq.current.length
    have helen := he.2
    have hruns := hq.current.runs.pushAll (l := e.spans) (by omega)
    refine ⟨?_, ?_, hq.packed, ⟨?_, hruns.reads ▸ hruns, ?_⟩, hq.unsplit.event fun _ => by omega⟩
    · simp [← hq.texts]
    · simp [← hq.kinds, hruns.reads]
    · rw [length_append]
      by_cases hne : q.current.text = []
      · rw [hne, length_nil]; omega
      · have := hroom hne; omega
    · rw [hruns.reads, length_append, length_append, hlen, helen]

theorem run (h : p.Inv small (max target small) seen) (ht : 0 < target)
    {events : List RenderedEvent} (he : ∀ e ∈ events, e.Tiled)
    (hn : Chunker.chars (seen ++ events) < 2 ^ 32) :
    (events.foldl (Packing.pack target small) p).Inv small (max target small) (seen ++ events) := by
  induction events generalizing p seen with
  | nil => simpa using h
  | cons e events ih =>
    rw [append_cons] at hn ⊢
    have hle : Chunker.chars seen + e.text.length < 2 ^ 32 := by
      simp only [chars_append, chars_cons] at hn
      omega
    exact ih (h.pack ht (he e (.head _)) hle) (fun x hx => he x (.tail _ hx)) hn

end Packing.Inv

end packing

theorem flatMap_marked {l : List RenderedEvent}
    (h : ∀ c ∈ l, (kinds c.spans).length = c.text.length) :
    l.flatMap (·.marked) = (l.flatMap (·.text)).zip (l.flatMap (kinds ·.spans)) := by
  induction l with
  | nil => rfl
  | cons c l ih =>
    obtain ⟨hc, hl⟩ := forall_mem_cons.1 h
    rw [flatMap_cons, ih hl, flatMap_cons, flatMap_cons, zip_append hc.symm]
    rfl

theorem packEvents_spec {events : List RenderedEvent} (cfg : ChunkerConfig)
    (htile : ∀ e ∈ events, e.Tiled) (hlen : chars events < 2 ^ 32) :
    let packed := packEvents events cfg
    packed.flatMap (·.text) = events.flatMap (·.text) ∧
      packed.flatMap (kinds ·.spans) = events.flatMap (kinds ·.spans) ∧
      (∀ c ∈ packed, Sound (max cfg.targetChars cfg.maxChars) c) ∧
      Unsplit cfg.maxChars events packed ∧ 0 < packed.length ∧ packed.length < 2 ^ 32 := by
  have hstart : Packing.Inv cfg.maxChars (max cfg.targetChars cfg.maxChars) [] ⟨[], ⟨[], []⟩⟩ :=
    ⟨rfl, rfl, nofun, Packing.Inv.sound_nil, by simp [Unsplit]⟩
  have htarget : 0 < cfg.targetChars := lt_of_lt_of_le zero_lt_one (le_max_right ..)
  obtain ⟨h, hnil, hk0⟩ := (hstart.run htarget htile hlen).close
  simp only [packEvents]
  generalize Packing.close _ = p at h hnil hk0
  have htexts := h.texts
  have hkinds := h.kinds
  have hunsplit := h.unsplit
  simp only [hnil, hk0, append_nil] at htexts hkinds hunsplit
  split
  next he =>
    rw [he] at htexts hkinds
    refine ⟨htexts, hkinds, by simp [Packing.Inv.sound_nil], hunsplit.cut fun before hb => ?_,
      by simp, by simp⟩
    exact .inr (by rw [chars, ← htexts]; exact zero_le _)
  next hne =>
    refine ⟨htexts, hkinds, fun c hc => (h.packed c hc).2, hunsplit, length_pos_iff.2 hne, ?_⟩
    have hcount : p.packed.length ≤ chars p.packed := by
      rw [chars, length_flatMap, ← length_map _]
      exact length_le_sum_of_one_le _ (by
        simpa [one_le_iff_ne_zero] using fun c hc => (h.packed c hc).1)
    have htotal : chars p.packed = chars events := congrArg length htexts
    omega

/-! ## Selection under the cap -/

structure TraceChunk extends RenderedEvent where
  chunkIndex : Nat

structure ChunkPlan where
  chunks : List TraceChunk
  chunksCapped : Bool
  droppedChunkCount : Nat

def stridedSelectionIndices (total cap : Nat) : List Nat :=
  let keep := min total (max cap 1)
  if keep = 0 then []
  else if keep = 1 then [0]
  else
    let span := total - 1
    let steps := keep - 1
    (List.range keep).map fun j => (j * span + steps / 2) / steps

/-- The slots at the indices, each taken out of its place; a slot that is empty panics. -/
def takeSlots : List (Option RenderedEvent) → List Nat → Option (List TraceChunk)
  | _, [] => some []
  | slots, i :: is => do
    let c ← slots[i]?.join
    let rest ← takeSlots (slots.set i none) is
    pure (⟨c, i % 2 ^ 32⟩ :: rest)

def finalizePlan (packed : List RenderedEvent) (cfg : ChunkerConfig) : Option ChunkPlan :=
  let cap := max cfg.chunkCap 1
  let total := packed.length
  (takeSlots (packed.map some) (stridedSelectionIndices total cap)).map fun chunks =>
    ⟨chunks, cap < total, if cap < total then (total - cap) % 2 ^ 32 else 0⟩

def chunkEvents (events : List RenderedEvent) (cfg : ChunkerConfig) : Option ChunkPlan :=
  finalizePlan (packEvents events cfg) cfg

/-- The plan keeps `cap` of the packed chunks in order, or all of them, from the first to the
last, and counts the others. -/
structure ChunkPlan.Keeps (plan : ChunkPlan) (cap : Nat) (packed : List RenderedEvent) : Prop where
  chunk : ∀ c ∈ plan.chunks, packed[c.chunkIndex]? = some c.toRenderedEvent
  increasing : (plan.chunks.map (·.chunkIndex)).Pairwise (· < ·)
  length : plan.chunks.length = min packed.length cap
  first : (plan.chunks.map (·.chunkIndex)).head? = some 0
  last : 1 < plan.chunks.length →
    (plan.chunks.map (·.chunkIndex)).getLast? = some (packed.length - 1)
  dropped : plan.droppedChunkCount = packed.length - plan.chunks.length

section selection

variable {total : Nat} {packed : List RenderedEvent}

/-- Rounded strides of at least one step are strictly increasing and end at the span. -/
theorem stride_lt (span : Nat) {steps : Nat} (hs : 0 < steps) (hle : steps ≤ span) :
    StrictMono fun j => (j * span + steps / 2) / steps := by
  refine strictMono_nat_of_lt_succ fun j => ?_
  calc (j * span + steps / 2) / steps
      < (j * span + steps / 2 + steps) / steps := by rw [add_div_right _ hs]; omega
    _ ≤ ((j + 1) * span + steps / 2) / steps := Nat.div_le_div_right (by rw [Nat.succ_mul]; omega)

theorem stridedSelectionIndices_spec (cap : Nat) (ht : 0 < total) :
    let kept := stridedSelectionIndices total cap
    kept.Pairwise (· < ·) ∧ kept.length = min total (max cap 1) ∧ (∀ i ∈ kept, i < total) ∧
      kept.head? = some 0 ∧ (1 < kept.length → kept.getLast? = some (total - 1)) := by
  simp only [stridedSelectionIndices]
  generalize hk : min _ (max cap 1) = keep
  rw [if_neg (by omega)]
  split
  next h1 => simp [h1, ht]
  obtain ⟨steps, rfl⟩ : ∃ steps, keep = steps + 1 := ⟨keep - 1, by omega⟩
  have hs : 0 < steps := by omega
  have hmono := stride_lt (total - 1) hs (by omega)
  have hlast : (steps * (total - 1) + steps / 2) / steps = total - 1 := by
    rw [mul_add_div hs, div_eq_of_lt (by omega), add_zero]
  refine ⟨pairwise_map.2 (pairwise_lt_range.imp fun h => hmono h), by simp, ?_, ?_, ?_⟩
  · refine forall_mem_map.2 fun j hj => ?_
    have := hmono.monotone (Nat.lt_succ_iff.1 (mem_range.1 hj))
    simp only [Nat.add_sub_cancel] at this ⊢
    omega
  · simp [range_succ_eq_map]
    omega
  · rw [range_succ]
    simp [hlast]

theorem takeSlots_spec (slots : List (Option RenderedEvent)) {is : List Nat}
    (hlt : is.Pairwise (· < ·)) (hn : ∀ i ∈ is, i < 2 ^ 32)
    (h : ∀ i ∈ is, ∃ c, packed[i]? = some c ∧ slots[i]? = some (some c)) :
    ∃ chunks, takeSlots slots is = some chunks ∧ chunks.map (·.chunkIndex) = is ∧
      ∀ c ∈ chunks, packed[c.chunkIndex]? = some c.toRenderedEvent := by
  induction is generalizing slots with
  | nil => exact ⟨[], rfl, rfl, nofun⟩
  | cons i is ih =>
    obtain ⟨hi, hlt⟩ := pairwise_cons.1 hlt
    obtain ⟨c, hc, hslot⟩ := h i (.head _)
    obtain ⟨chunks, htake, hidx, hall⟩ := ih (slots.set i none) hlt
      (fun j hj => hn j (.tail _ hj)) fun j hj => by
        rw [getElem?_set_ne (hi j hj).ne]
        exact h j (.tail _ hj)
    have hmod := mod_eq_of_lt (hn i (.head _))
    refine ⟨⟨c, i⟩ :: chunks, ?_, by simp [hidx], ?_⟩
    · simp only [takeSlots, hslot, htake, hmod]
      rfl
    · exact forall_mem_cons.2 ⟨hc, hall⟩

theorem finalizePlan_keeps (cfg : ChunkerConfig)
    (hpos : 0 < packed.length) (hcount : packed.length < 2 ^ 32) :
    ∃ plan, finalizePlan packed cfg = some plan ∧ plan.Keeps (max cfg.chunkCap 1) packed := by
  obtain ⟨hlt, _, hbound, hhead, hlast⟩ :=
    stridedSelectionIndices_spec (max cfg.chunkCap 1) hpos
  obtain ⟨chunks, htake, hidx, hall⟩ := takeSlots_spec (packed.map some) hlt
    (fun i hi => (hbound i hi).trans hcount) fun i hi =>
      ⟨packed.get ⟨i, hbound i hi⟩, getElem?_eq_getElem _, by simp⟩
  have hlen : chunks.length = min packed.length (max cfg.chunkCap 1) := by
    rw [← length_map _, hidx]
    omega
  refine ⟨_, by rw [finalizePlan, htake]; rfl, hall, hidx ▸ hlt, hlen, hidx ▸ hhead, ?_, ?_⟩
  · rw [hidx, hlen]
    intro h1
    exact hlast (by omega)
  · simp only
    split <;> omega

end selection

/-- The chunks before the cap have the events' text, each char with its kind, in bounded pieces
that split no event within the maximum; the plan keeps as many as the cap allows, the first and
the last among them, and counts the others. -/
theorem chunkEvents_covers (events : List RenderedEvent) (cfg : ChunkerConfig)
    (htile : ∀ e ∈ events, e.Tiled) (hlen : chars events < 2 ^ 32) :
    let packed := packEvents events cfg
    packed.flatMap (·.text) = events.flatMap (·.text) ∧
    packed.flatMap (·.marked) = events.flatMap (·.marked) ∧
    (∀ c ∈ packed, c.text.length ≤ max cfg.targetChars cfg.maxChars ∧ c.Tiled ∧
      ∀ s ∈ c.spans, 0 < s.len) ∧
    Unsplit cfg.maxChars events packed ∧
    ∃ plan, chunkEvents events cfg = some plan ∧ plan.Keeps (max cfg.chunkCap 1) packed := by
  obtain ⟨htexts, hkinds, hsound, hunsplit, hpos, hcount⟩ := packEvents_spec cfg htile hlen
  refine ⟨htexts, ?_, fun c hc => ?_, hunsplit, finalizePlan_keeps cfg hpos hcount⟩
  · rw [flatMap_marked fun c hc => (hsound c hc).length, flatMap_marked fun e he => (htile e he).2,
      htexts, hkinds]
  · exact ⟨(hsound c hc).size, ⟨(hsound c hc).runs.adjacent, (hsound c hc).length⟩,
      (hsound c hc).runs.pos⟩

/-- A message of 4 chars and a tool's result of 15. -/
def twoEvents : List RenderedEvent :=
  [renderEvent "a" none [], renderEvent "tool_result" none "1".toList]

/-- In chunks of at most 4 chars the larger event is split, and two chunks are kept of five. -/
theorem chunkEvents_covers_two :
    ∃ plan, chunkEvents twoEvents ⟨1, 1, 2⟩ = some plan ∧ plan.chunks.length = 2 ∧
      plan.droppedChunkCount = 3 ∧ (plan.chunks.map (·.chunkIndex)).getLast? = some 4 := by
  have htile : ∀ e ∈ twoEvents, e.Tiled := by
    refine forall_mem_cons.2 ⟨renderEvent_tiled (by decide), ?_⟩
    exact forall_mem_singleton.2 (renderEvent_tiled (by decide))
  have hpacked : (packEvents twoEvents ⟨1, 1, 2⟩).length = 5 := by decide +kernel
  obtain ⟨-, -, -, -, plan, hplan, hkeeps⟩ :=
    chunkEvents_covers twoEvents ⟨1, 1, 2⟩ htile (by decide)
  have hlen : plan.chunks.length = 2 := by rw [hkeeps.length]; rfl
  refine ⟨plan, hplan, hlen, by rw [hkeeps.dropped, hpacked, hlen], ?_⟩
  rw [hkeeps.last (by omega), hpacked]

end TraceCommons.Gate.Chunker

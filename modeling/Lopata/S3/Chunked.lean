import Lopata.Lib.Text

/-!
# Chunked Bodies

`decodeAwsChunked` takes the framing off a request body. The stream calls `pull` again when the
last call has settled, and each call goes on until it has a chunk, closes the stream or errors it.

## Main results

* `pull_owes`: each call of `pull` hands out a beginning of what the decoder still owes.
* `yields_drain`: every stream comes to its end.
* `yields_iff`: a framed payload is decoded to the payload, however the body is cut into reads.
-/

namespace Lopata.S3

abbrev Bytes := List UInt8

/-! ### The decoder -/

/-- What `reader.read()` returns from now on: the reads, and then `done` or a failure. -/
structure Source where
  reads : List Bytes
  failure : Option String := none

/-- `State`. -/
inductive Expecting
  | header
  | data (remaining : ℤ)
  | crlfAfterData
  | done

structure Decoder where
  buffer : Bytes := []
  state : Expecting := .header
  source : Source

/-- What becomes of a call of `pull`. -/
inductive Pulled
  | enqueue (chunk : Bytes) (d : Decoder)
  | close (d : Decoder)
  | error (message : String)

/-- One turn of the loop in `pull`. -/
inductive Turn
  | again (d : Decoder)
  | settled (p : Pulled)

def decodeAwsChunked (stream : Source) : Decoder := { source := stream }

/-- `indexOfCRLF`; none is -1. -/
def indexOfCRLF : Bytes → Option ℕ
  | [] => none
  | [_] => none
  | a :: b :: buf =>
      if a = 0x0D ∧ b = 0x0A then some 0 else (indexOfCRLF (b :: buf)).map (· + 1)

/-- An index of `subarray`: a negative one counts from the end. -/
def relativeIndex (buffer : Bytes) (i : ℤ) : ℕ :=
  if i < 0 then (buffer.length + i).toNat else min i.toNat buffer.length

/-- `subarray(0, i)` and `subarray(i)`. -/
def before (buffer : Bytes) (i : ℤ) : Bytes := buffer.take (relativeIndex buffer i)

def after (buffer : Bytes) (i : ℤ) : Bytes := buffer.drop (relativeIndex buffer i)

namespace Decoder

variable (d : Decoder)

/-- A read that is appended to the buffer; `ended` is for a stream that is done. -/
def fill (ended : Pulled) : Turn :=
  match d.source.reads with
  | value :: reads =>
      .again { d with buffer := d.buffer ++ value, source := { d.source with reads := reads } }
  | [] => .settled (match d.source.failure with
    | some reason => .error reason
    | none => ended)

def turn : Turn :=
  match d.state with
  | .done => .settled (.close d)
  | .header =>
      match indexOfCRLF d.buffer with
      | none => d.fill (.close d)
      | some crlf =>
          let line := decodeUtf8 (d.buffer.take crlf)
          let rest := { d with buffer := d.buffer.drop (crlf + 2) }
          match parseHex (trim (line.takeWhile (· ≠ ';'))) with
          | none => .settled (.error ("Invalid chunk size: " ++ String.ofList line))
          | some size =>
              if size = 0 then .settled (.close { rest with state := .done })
              else .again { rest with state := .data size }
  | .data remaining =>
      if d.buffer = [] then d.fill (.error "Unexpected end of aws-chunked stream inside data")
      else
        let take := min remaining d.buffer.length
        .settled (.enqueue (before d.buffer take)
          { d with
            buffer := after d.buffer take
            state := if remaining - take = 0 then .crlfAfterData else .data (remaining - take) })
  | .crlfAfterData =>
      if d.buffer.length < 2 then
        d.fill (.error "Unexpected end of aws-chunked stream before CRLF")
      else .again { d with buffer := d.buffer.drop 2, state := .header }

/-- What can still be done without a read. -/
def rank : ℕ :=
  match d.state with
  | .crlfAfterData => 2
  | .header => 1
  | .data _ | .done => 0

end Decoder

variable {d d' : Decoder}

theorem fill_again {ended : Pulled} (h : d.fill ended = .again d') :
    ∃ value reads, d.source.reads = value :: reads ∧ d' =
      { d with buffer := d.buffer ++ value, source := { d.source with reads := reads } } := by
  unfold Decoder.fill at h
  split at h
  · next value reads hreads => exact ⟨value, reads, hreads, (Turn.again.inj h).symm⟩
  · cases h

/-- A turn that is not the last takes a read, or goes on to the next state. -/
theorem turn_again (h : d.turn = .again d') :
    Prod.Lex (· < ·) (· < ·) (d'.source.reads.length, d'.rank) (d.source.reads.length, d.rank) := by
  have hfill : ∀ {ended}, d.fill ended = .again d' →
      Prod.Lex (· < ·) (· < ·) (d'.source.reads.length, d'.rank)
        (d.source.reads.length, d.rank) := by
    intro ended hfill
    obtain ⟨value, reads, hreads, rfl⟩ := fill_again hfill
    refine Prod.Lex.left _ _ ?_
    rw [hreads]
    exact Nat.lt_succ_self _
  unfold Decoder.turn at h
  split at h
  · cases h
  · next hstate =>
      split at h
      · exact hfill h
      · dsimp only at h
        split at h
        · cases h
        · split at h
          · cases h
          · obtain rfl := Turn.again.inj h
            refine Prod.Lex.right _ ?_
            simp [Decoder.rank, hstate]
  · split at h
    · exact hfill h
    · cases h
  · next hstate =>
      split at h
      · exact hfill h
      · obtain rfl := Turn.again.inj h
        refine Prod.Lex.right _ ?_
        simp [Decoder.rank, hstate]

/-- `pull`. -/
def Decoder.pull (d : Decoder) : Pulled :=
  match _h : d.turn with
  | .again d' => d'.pull
  | .settled p => p
termination_by (d.source.reads.length, d.rank)
decreasing_by exact turn_again ‹_›

theorem pull_again (h : d.turn = .again d') : d.pull = d'.pull := by
  rw [Decoder.pull]
  split
  · next hagain =>
      cases h.symm.trans hagain
      rfl
  · next hsettled => cases h.symm.trans hsettled

theorem pull_settled {p : Pulled} (h : d.turn = .settled p) : d.pull = p := by
  rw [Decoder.pull]
  split
  · next hagain => cases h.symm.trans hagain
  · next hsettled =>
      cases h.symm.trans hsettled
      rfl

/-- How a stream ends. -/
inductive Ending
  | closed
  | errored (message : String)

/-- What the consumer of the decoded stream is given, in one piece, and how the stream ends. -/
inductive Yields : Decoder → Bytes → Ending → Prop
  | close {d d' : Decoder} (h : d.pull = .close d') : Yields d [] .closed
  | error {d : Decoder} {message : String} (h : d.pull = .error message) :
      Yields d [] (.errored message)
  | enqueue {d d' : Decoder} {chunk out : Bytes} {ending : Ending}
      (h : d.pull = .enqueue chunk d') (rest : Yields d' out ending) :
      Yields d (chunk ++ out) ending

/-! ### Framing -/

def crlf : Bytes := [0x0D, 0x0A]

/-- `hex-size[;extensions]`. -/
structure SizeLine where
  digits : List Char
  extension : Option Bytes
  nonempty : digits ≠ []
  hex : ∀ c ∈ digits, isHex c = true
  /-- The line ends at its first CRLF. -/
  clean : ∀ bytes, extension = some bytes → indexOfCRLF bytes = none

def SizeLine.bytes (l : SizeLine) : Bytes :=
  l.digits.map asciiByte ++ match l.extension with
    | none => []
    | some bytes => asciiByte ';' :: bytes

structure Frame where
  line : SizeLine
  data : Bytes
  nonempty : data ≠ []
  size : hexValue line.digits = data.length

/-- The zero chunk, with what follows it: trailers, and the last CRLF. -/
structure LastFrame where
  line : SizeLine
  zero : hexValue line.digits = 0
  trailers : Bytes

def Frame.bytes (f : Frame) : Bytes := f.line.bytes ++ crlf ++ (f.data ++ crlf)

/-- A body in aws-chunked framing, and its payload. -/
def encode (frames : List Frame) (last : LastFrame) : Bytes :=
  frames.flatMap Frame.bytes ++ (last.line.bytes ++ crlf ++ last.trailers)

def payload (frames : List Frame) : Bytes := frames.flatMap Frame.data

/-! ### Lines -/

theorem indexOfCRLF_append {buf : Bytes} {i : ℕ} (more : Bytes) (h : indexOfCRLF buf = some i) :
    indexOfCRLF (buf ++ more) = some i := by
  induction buf using indexOfCRLF.induct generalizing i with
  | case1 => cases h
  | case2 a => cases h
  | case3 a b buf hcrlf =>
    rw [indexOfCRLF, if_pos hcrlf] at h
    rw [List.cons_append, List.cons_append, indexOfCRLF, if_pos hcrlf, h]
  | case4 a b buf hcrlf ih =>
    rw [indexOfCRLF, if_neg hcrlf] at h
    obtain ⟨j, hj, rfl⟩ := Option.map_eq_some_iff.mp h
    rw [List.cons_append, List.cons_append, indexOfCRLF, if_neg hcrlf]
    exact Option.map_eq_some_iff.mpr ⟨j, ih hj, rfl⟩

theorem indexOfCRLF_bound {buf : Bytes} {i : ℕ} (h : indexOfCRLF buf = some i) :
    i + 2 ≤ buf.length := by
  induction buf using indexOfCRLF.induct generalizing i with
  | case1 => cases h
  | case2 a => cases h
  | case3 a b buf hcrlf =>
    rw [indexOfCRLF, if_pos hcrlf] at h
    obtain rfl := Option.some.inj h
    simp
  | case4 a b buf hcrlf ih =>
    rw [indexOfCRLF, if_neg hcrlf] at h
    obtain ⟨j, hj, rfl⟩ := Option.map_eq_some_iff.mp h
    have := ih hj
    simp only [List.length_cons] at this ⊢
    omega

/-- A byte before a text that has no CRLF. -/
theorem indexOfCRLF_cons {a : UInt8} (buf : Bytes) (ha : a ≠ 0x0D) (more : Bytes) :
    indexOfCRLF (a :: buf ++ more) = (indexOfCRLF (buf ++ more)).map (· + 1) := by
  cases hbuf : buf ++ more with
  | nil =>
    rw [List.cons_append, hbuf]
    rfl
  | cons b rest =>
    rw [List.cons_append, hbuf, indexOfCRLF, if_neg fun hcrlf => ha hcrlf.1]

/-- The first CRLF is the one after a line that has none. -/
theorem indexOfCRLF_line {buf : Bytes} (h : indexOfCRLF buf = none) (more : Bytes) :
    indexOfCRLF (buf ++ (crlf ++ more)) = some buf.length := by
  induction buf using indexOfCRLF.induct with
  | case1 => rfl
  | case2 a =>
    have hnot : ¬ (a = 0x0D ∧ (0x0D : UInt8) = 0x0A) := fun hcrlf => (by cases hcrlf.2)
    show indexOfCRLF (a :: 0x0D :: 0x0A :: more) = some 1
    rw [indexOfCRLF, if_neg hnot, indexOfCRLF, if_pos ⟨rfl, rfl⟩]
    rfl
  | case3 a b buf hcrlf =>
    rw [indexOfCRLF, if_pos hcrlf] at h
    cases h
  | case4 a b buf hcrlf ih =>
    rw [indexOfCRLF, if_neg hcrlf, Option.map_eq_none_iff] at h
    rw [List.cons_append, List.cons_append, indexOfCRLF, if_neg hcrlf]
    exact Option.map_eq_some_iff.mpr ⟨_, ih h, rfl⟩

theorem indexOfCRLF_digits {digits : List Char} (h : ∀ c ∈ digits, isHex c = true) (more : Bytes) :
    indexOfCRLF (digits.map asciiByte ++ more) =
      (indexOfCRLF more).map (· + digits.length) := by
  induction digits with
  | nil => simp
  | cons c digits ih =>
    have hc := h c List.mem_cons_self
    have hne : asciiByte c ≠ 0x0D := by
      intro heq
      have hn := toNat_of_isHex hc
      have := asciiByte_toNat (ascii_of_isHex hc)
      rw [heq] at this
      have : 13 = c.toNat := this
      omega
    rw [List.map_cons, indexOfCRLF_cons _ hne, ih fun d hd => h d (List.mem_cons_of_mem _ hd)]
    simp [Function.comp_def, Nat.add_assoc]

/-- A size line ends at its CRLF. -/
theorem SizeLine.indexOfCRLF_bytes (l : SizeLine) : indexOfCRLF l.bytes = none := by
  rw [SizeLine.bytes, indexOfCRLF_digits l.hex, Option.map_eq_none_iff]
  split
  · rfl
  · next bytes hbytes =>
      have hclean := l.clean bytes hbytes
      have hcons := indexOfCRLF_cons (a := asciiByte ';') bytes (by decide) []
      rw [List.append_nil, List.append_nil, hclean] at hcons
      exact hcons

/-- What the decoder reads from a size line. -/
theorem SizeLine.parse_bytes (l : SizeLine) :
    parseHex (trim ((decodeUtf8 l.bytes).takeWhile (· ≠ ';'))) = some (hexValue l.digits : ℤ) := by
  have hascii : ∀ c ∈ l.digits, c.toNat < 0x80 := fun c hc => ascii_of_isHex (l.hex c hc)
  have hsemicolon : ∀ c ∈ l.digits, decide (c ≠ ';') = true := by
    intro c hc
    refine decide_eq_true ?_
    rintro rfl
    cases l.hex _ hc
  have htake : (decodeUtf8 l.bytes).takeWhile (· ≠ ';') = l.digits := by
    rw [SizeLine.bytes, decodeUtf8_ascii l.nonempty hascii,
      List.takeWhile_append_of_pos hsemicolon]
    split
    · simp [utf8Decode]
    · next bytes hbytes =>
        have hone : ∀ c ∈ [';'], c.toNat < 0x80 := fun c hc => by
          rw [List.mem_singleton.mp hc]
          decide
        rw [← List.singleton_append, ← List.map_singleton (f := asciiByte), utf8Decode_ascii hone]
        simp
  rw [htake, trim_eq fun c hc => isSpace_of_isHex (l.hex c hc), parseHex_digits l.nonempty l.hex]

/-! ### What the decoder owes -/

/-- The bytes that have not been consumed. -/
def Decoder.rest (d : Decoder) : Bytes := d.buffer ++ d.source.reads.flatten

/-- The payload that is still to come. -/
inductive Owes (last : LastFrame) : Decoder → Bytes → Prop
  | header {d : Decoder} (frames : List Frame) (hstate : d.state = .header)
      (hrest : d.rest = encode frames last) : Owes last d (payload frames)
  | data {d : Decoder} {bytes : Bytes} (frames : List Frame) (hne : bytes ≠ [])
      (hstate : d.state = .data bytes.length)
      (hrest : d.rest = bytes ++ (crlf ++ encode frames last)) :
      Owes last d (bytes ++ payload frames)
  | crlfAfterData {d : Decoder} (frames : List Frame) (hstate : d.state = .crlfAfterData)
      (hrest : d.rest = crlf ++ encode frames last) : Owes last d (payload frames)

/-- A call of `pull` hands out a beginning of what is owed, and closes when nothing is. -/
def Pulled.Pays (last : LastFrame) (out : Bytes) : Pulled → Prop
  | .enqueue chunk d => chunk ≠ [] ∧ ∃ out', out = chunk ++ out' ∧ Owes last d out'
  | .close _ => out = []
  | .error _ => False

def Turn.Pays (last : LastFrame) (out : Bytes) : Turn → Prop
  | .again d => Owes last d out
  | .settled p => p.Pays last out

variable {last : LastFrame} {out : Bytes}

theorem Owes.congr (h : Owes last d out) (hstate : d'.state = d.state) (hrest : d'.rest = d.rest) :
    Owes last d' out := by
  cases h with
  | header frames hs hr => exact .header frames (hstate.trans hs) (hrest.trans hr)
  | data frames hne hs hr => exact .data frames hne (hstate.trans hs) (hrest.trans hr)
  | crlfAfterData frames hs hr => exact .crlfAfterData frames (hstate.trans hs) (hrest.trans hr)

/-- Reading on leaves what is owed as it is. -/
theorem fill_pays {ended : Pulled} (h : Owes last d out) (hreads : d.source.reads ≠ []) :
    (d.fill ended).Pays last out := by
  obtain ⟨value, reads, hcons⟩ := List.exists_cons_of_ne_nil hreads
  rw [Decoder.fill, hcons]
  refine h.congr rfl ?_
  rw [Decoder.rest, Decoder.rest, hcons, List.flatten_cons, List.append_assoc]

/-- A framed body starts with a size line: of the last chunk, or of one with data. -/
theorem encode_cases (frames : List Frame) (last : LastFrame) :
    ∃ (line : SizeLine) (more : Bytes), encode frames last = line.bytes ++ (crlf ++ more) ∧
      ((frames = [] ∧ hexValue line.digits = 0) ∨
        ∃ f rest, frames = f :: rest ∧ line = f.line ∧
          more = f.data ++ (crlf ++ encode rest last)) := by
  cases frames with
  | nil =>
    refine ⟨last.line, last.trailers, ?_, .inl ⟨rfl, last.zero⟩⟩
    simp [encode]
  | cons f rest =>
    refine ⟨f.line, f.data ++ (crlf ++ encode rest last), ?_, .inr ⟨f, rest, rfl, rfl, rfl⟩⟩
    simp [encode, Frame.bytes]

/-- A size line in the buffer, and what comes after it. -/
theorem line_of_rest {line : SizeLine} {more : Bytes} {i : ℕ}
    (hrest : d.rest = line.bytes ++ (crlf ++ more)) (hindex : indexOfCRLF d.buffer = some i) :
    d.buffer.take i = line.bytes ∧ d.buffer.drop (i + 2) ++ d.source.reads.flatten = more := by
  have hi : i = line.bytes.length := by
    have happend := indexOfCRLF_append d.source.reads.flatten hindex
    have hrest : d.buffer ++ d.source.reads.flatten = line.bytes ++ (crlf ++ more) := hrest
    rw [hrest, indexOfCRLF_line line.indexOfCRLF_bytes] at happend
    exact (Option.some.inj happend).symm
  have hbound := indexOfCRLF_bound hindex
  constructor
  · have htake := congrArg (List.take i) hrest
    rw [Decoder.rest, List.take_append_of_le_length (by omega), hi, List.take_left] at htake
    rw [hi, htake]
  · have hdrop := congrArg (List.drop (i + 2)) hrest
    rw [Decoder.rest, List.drop_append_of_le_length hbound, hi, ← List.append_assoc,
      List.drop_left' (by simp [crlf])] at hdrop
    rw [hi, hdrop]

/-- **A size line** is read. -/
theorem turn_header {frames : List Frame} (hstate : d.state = .header)
    (hrest : d.rest = encode frames last) : d.turn.Pays last (payload frames) := by
  obtain ⟨line, more, hencode, hcases⟩ := encode_cases frames last
  have howes : Owes last d (payload frames) := .header frames hstate hrest
  rw [hencode] at hrest
  simp only [Decoder.turn, hstate]
  cases hindex : indexOfCRLF d.buffer with
  | none =>
    refine fill_pays howes fun hreads => ?_
    rw [Decoder.rest, hreads, List.flatten_nil, List.append_nil] at hrest
    rw [hrest, indexOfCRLF_line line.indexOfCRLF_bytes] at hindex
    cases hindex
  | some i =>
    obtain ⟨hline, hmore⟩ := line_of_rest hrest hindex
    simp only [hline, line.parse_bytes]
    rcases hcases with ⟨rfl, hzero⟩ | ⟨f, rest, rfl, rfl, rfl⟩
    · rw [hzero]
      rfl
    · have hpos : 0 < f.data.length := List.length_pos_of_ne_nil f.nonempty
      rw [f.size, if_neg (by omega)]
      exact .data rest f.nonempty rfl hmore

theorem relativeIndex_natCast {buffer : Bytes} {n : ℕ} (h : n ≤ buffer.length) :
    relativeIndex buffer n = n := by
  rw [relativeIndex, if_neg (by omega), Int.toNat_natCast]
  exact Nat.min_eq_left h

/-- **Data** is handed out: the buffer, or the rest of the chunk. -/
theorem turn_data {frames : List Frame} {bytes : Bytes} (hne : bytes ≠ [])
    (hstate : d.state = .data bytes.length)
    (hrest : d.rest = bytes ++ (crlf ++ encode frames last)) :
    d.turn.Pays last (bytes ++ payload frames) := by
  have howes : Owes last d (bytes ++ payload frames) := .data frames hne hstate hrest
  simp only [Decoder.turn, hstate]
  split
  · next hempty =>
      refine fill_pays howes fun hreads => ?_
      rw [Decoder.rest, hempty, hreads] at hrest
      cases bytes with
      | nil => exact hne rfl
      | cons b bytes => cases hrest
  · next hbuffer =>
      have hmin : min (bytes.length : ℤ) d.buffer.length =
          ((min bytes.length d.buffer.length : ℕ) : ℤ) := by omega
      have hpos : 0 < bytes.length := List.length_pos_of_ne_nil hne
      have hpos' : 0 < d.buffer.length := List.length_pos_of_ne_nil hbuffer
      rw [hmin]
      generalize htake : min bytes.length d.buffer.length = take
      have hle : take ≤ d.buffer.length := by omega
      have hchunk : d.buffer.take take = bytes.take take := by
        have htaken := congrArg (List.take take) hrest
        rwa [Decoder.rest, List.take_append_of_le_length hle,
          List.take_append_of_le_length (by omega)] at htaken
      have hdropped : d.buffer.drop take ++ d.source.reads.flatten =
          bytes.drop take ++ (crlf ++ encode frames last) := by
        have hdropped := congrArg (List.drop take) hrest
        rwa [Decoder.rest, List.drop_append_of_le_length hle,
          List.drop_append_of_le_length (by omega)] at hdropped
      rw [before, after, relativeIndex_natCast hle]
      refine ⟨?_, bytes.drop take ++ payload frames, ?_, ?_⟩
      · exact List.ne_nil_of_length_pos (by rw [List.length_take]; omega)
      · rw [hchunk, ← List.append_assoc, List.take_append_drop]
      · split
        · next hall =>
            have hnil : bytes.drop take = [] := List.drop_eq_nil_iff.mpr (by omega)
            rw [hnil, List.nil_append] at hdropped ⊢
            exact .crlfAfterData frames rfl hdropped
        · next hmore =>
            refine .data frames ?_ ?_ hdropped
            · exact List.ne_nil_of_length_pos (by rw [List.length_drop]; omega)
            · rw [List.length_drop]
              exact congrArg Expecting.data (by omega)

/-- **The CRLF after a chunk** is skipped. -/
theorem turn_crlf {frames : List Frame} (hstate : d.state = .crlfAfterData)
    (hrest : d.rest = crlf ++ encode frames last) : d.turn.Pays last (payload frames) := by
  have howes : Owes last d (payload frames) := .crlfAfterData frames hstate hrest
  simp only [Decoder.turn, hstate]
  split
  · next hshort =>
      refine fill_pays howes fun hreads => ?_
      have hlength := congrArg List.length hrest
      rw [Decoder.rest, hreads, List.flatten_nil, List.append_nil, List.length_append] at hlength
      have : crlf.length = 2 := rfl
      omega
  · next hlong =>
      refine .header frames rfl ?_
      have hdrop := congrArg (List.drop 2) hrest
      rwa [Decoder.rest, List.drop_append_of_le_length (by omega)] at hdrop

theorem turn_pays (h : Owes last d out) : d.turn.Pays last out := by
  cases h with
  | header frames hstate hrest => exact turn_header hstate hrest
  | data frames hne hstate hrest => exact turn_data hne hstate hrest
  | crlfAfterData frames hstate hrest => exact turn_crlf hstate hrest

/-- **Each call of `pull`** hands out a beginning of what the decoder owes. -/
theorem pull_owes (h : Owes last d out) : d.pull.Pays last out := by
  induction d using Decoder.pull.induct with
  | case1 d d' hturn ih =>
    have hpays := turn_pays h
    rw [hturn] at hpays
    rw [pull_again hturn]
    exact ih hpays
  | case2 d p hturn =>
    have hpays := turn_pays h
    rwa [hturn, ← pull_settled hturn] at hpays

variable (last) in
/-- A decoder hands out what it owes, and then the stream closes. -/
theorem yields_of_owes (h : Owes last d out) : Yields d out .closed := by
  induction hn : out.length using Nat.strongRecOn generalizing d out with
  | ind n ih =>
    have hpays := pull_owes h
    cases hpull : d.pull with
    | enqueue chunk d' =>
      rw [hpull] at hpays
      obtain ⟨hne, out', rfl, howes⟩ := hpays
      have hpos := List.length_pos_of_ne_nil hne
      rw [List.length_append] at hn
      exact .enqueue hpull (ih _ (by omega) howes rfl)
    | close d' =>
      rw [hpull] at hpays
      obtain rfl : out = [] := hpays
      exact .close hpull
    | error message =>
      rw [hpull] at hpays
      exact hpays.elim

/-- What a stream yields is determined. -/
theorem Yields.unique {out' : Bytes} {ending ending' : Ending} (h : Yields d out ending)
    (h' : Yields d out' ending') : out = out' ∧ ending = ending' := by
  induction h generalizing out' ending' with
  | close hpull =>
    cases h' with
    | close _ => exact ⟨rfl, rfl⟩
    | error hpull' => cases hpull.symm.trans hpull'
    | enqueue hpull' _ => cases hpull.symm.trans hpull'
  | error hpull =>
    cases h' with
    | close hpull' => cases hpull.symm.trans hpull'
    | error hpull' =>
      cases hpull.symm.trans hpull'
      exact ⟨rfl, rfl⟩
    | enqueue hpull' _ => cases hpull.symm.trans hpull'
  | enqueue hpull _ ih =>
    cases h' with
    | close hpull' => cases hpull.symm.trans hpull'
    | error hpull' => cases hpull.symm.trans hpull'
    | enqueue hpull' hrest' =>
      cases hpull.symm.trans hpull'
      obtain ⟨rfl, rfl⟩ := ih hrest'
      exact ⟨rfl, rfl⟩

/-! ### Draining -/

/-- The bytes that have not been handed out, counted so that a chunk counts although it may be
empty: a size can be negative, and a negative index counts from the end. -/
def Decoder.load (d : Decoder) : ℕ :=
  2 * (d.buffer.length + d.source.reads.flatten.length) +
    match d.state with
    | .data _ => 1
    | .header | .crlfAfterData | .done => 0

theorem load_fill {ended : Pulled} (h : d.fill ended = .again d') : d'.load = d.load := by
  obtain ⟨value, reads, hreads, rfl⟩ := fill_again h
  simp only [Decoder.load, hreads, List.flatten_cons, List.length_append]
  omega

theorem fill_ne_enqueue {ended : Pulled} {chunk : Bytes} (hended : ended ≠ .enqueue chunk d') :
    d.fill ended ≠ .settled (.enqueue chunk d') := by
  intro h
  unfold Decoder.fill at h
  split at h
  · cases h
  · split at h
    · cases h
    · exact hended (Turn.settled.inj h)

/-- A turn that goes on loads nothing. -/
theorem load_again (h : d.turn = .again d') : d'.load ≤ d.load := by
  unfold Decoder.turn at h
  split at h
  · cases h
  · next hstate =>
      split at h
      · exact (load_fill h).le
      · next crlf hcrlf =>
          dsimp only at h
          split at h
          · cases h
          · split at h
            · cases h
            · obtain rfl := Turn.again.inj h
              have hbound := indexOfCRLF_bound hcrlf
              simp only [Decoder.load, hstate, List.length_drop]
              omega
  · split at h
    · exact (load_fill h).le
    · cases h
  · next hstate =>
      split at h
      · exact (load_fill h).le
      · obtain rfl := Turn.again.inj h
        simp only [Decoder.load, hstate, List.length_drop]
        omega

/-- A chunk that is handed out counts. -/
theorem load_enqueue {chunk : Bytes} (h : d.turn = .settled (.enqueue chunk d')) :
    d'.load < d.load := by
  unfold Decoder.turn at h
  split at h
  · cases h
  · split at h
    · exact absurd h (fill_ne_enqueue fun heq => by cases heq)
    · dsimp only at h
      split at h
      · cases h
      · split at h <;> cases h
  · next remaining hstate =>
      split at h
      · exact absurd h (fill_ne_enqueue fun heq => by cases heq)
      · next hne =>
          have hpos := List.length_pos_of_ne_nil hne
          obtain ⟨-, rfl⟩ := Pulled.enqueue.inj (Turn.settled.inj h)
          by_cases hzero : remaining - min remaining d.buffer.length = 0
          · simp only [Decoder.load, hstate, after, List.length_drop, if_pos hzero]
            omega
          · -- the chunk goes on behind the buffer, which is handed out whole
            have hmin : min remaining d.buffer.length = d.buffer.length := by omega
            have hindex : relativeIndex d.buffer d.buffer.length = d.buffer.length := by
              rw [relativeIndex, if_neg (by omega)]
              omega
            simp only [Decoder.load, hstate, after, List.length_drop, if_neg hzero]
            rw [hmin, hindex]
            omega
  · split at h
    · exact absurd h (fill_ne_enqueue fun heq => by cases heq)
    · cases h

theorem load_pull {chunk : Bytes} (h : d.pull = .enqueue chunk d') : d'.load < d.load := by
  induction d using Decoder.pull.induct with
  | case1 d d₁ hturn ih =>
    rw [pull_again hturn] at h
    exact (ih h).trans_le (load_again hturn)
  | case2 d p hturn =>
    rw [pull_settled hturn] at h
    exact load_enqueue (h ▸ hturn)

/-- The bytes of the stream, to its end. -/
def Decoder.drain (d : Decoder) : Bytes × Ending :=
  match _h : d.pull with
  | .close _ => ([], .closed)
  | .error message => ([], .errored message)
  | .enqueue chunk d' => (chunk ++ d'.drain.1, d'.drain.2)
termination_by d.load
decreasing_by all_goals exact load_pull ‹_›

theorem drain_eq (d : Decoder) : d.drain = match d.pull with
    | .close _ => ([], .closed)
    | .error message => ([], .errored message)
    | .enqueue chunk d' => (chunk ++ d'.drain.1, d'.drain.2) := by
  rw [Decoder.drain]
  split <;> simp_all

/-- Every stream comes to its end. -/
theorem yields_drain (d : Decoder) : Yields d d.drain.1 d.drain.2 := by
  induction d using Decoder.drain.induct with
  | case1 d d' hpull =>
    rw [drain_eq, hpull]
    exact .close hpull
  | case2 d message hpull =>
    rw [drain_eq, hpull]
    exact .error hpull
  | case3 d chunk d' hpull ih =>
    rw [drain_eq, hpull]
    exact .enqueue hpull ih

/-- **Decoding inverts framing**, however the framed bytes are cut into reads: the stream yields the
payload, closes, and does nothing else. -/
theorem yields_iff {frames : List Frame} {stream : Source}
    (h : stream.reads.flatten = encode frames last) {ending : Ending} :
    Yields (decodeAwsChunked stream) out ending ↔ out = payload frames ∧ ending = .closed := by
  have hyields : Yields (decodeAwsChunked stream) (payload frames) .closed :=
    yields_of_owes last (.header frames rfl h)
  constructor
  · exact fun hother => hother.unique hyields
  · rintro ⟨rfl, rfl⟩
    exact hyields

/-- `5;a`, `hello` and the zero chunk, cut inside both lines and both CRLFs. -/
theorem yields_iff_hello :
    Yields (decodeAwsChunked { reads := [[0x35], [0x3B, 0x61, 0x0D], [0x0A, 0x68, 0x65], [],
      [0x6C, 0x6C, 0x6F, 0x0D], [0x0A, 0x30, 0x0D], [0x0A, 0x0D, 0x0A]] })
      [0x68, 0x65, 0x6C, 0x6C, 0x6F] .closed := by
  have hclean : ∀ bytes, some [asciiByte 'a'] = some bytes → indexOfCRLF bytes = none := by
    rintro bytes ⟨⟩
    rfl
  have hhex : ∀ d, isHex d = true → ∀ c ∈ [d], isHex c = true := fun d hd c hc =>
    List.mem_singleton.mp hc ▸ hd
  let hello : Frame := {
    line := ⟨['5'], some [asciiByte 'a'], by decide, hhex '5' rfl, hclean⟩
    data := [0x68, 0x65, 0x6C, 0x6C, 0x6F]
    nonempty := by decide
    size := rfl }
  let last : LastFrame := {
    line := ⟨['0'], none, by decide, hhex '0' rfl, fun _ hfalse => by cases hfalse⟩
    zero := rfl
    trailers := crlf }
  have hreads : [[0x35], [0x3B, 0x61, 0x0D], [0x0A, 0x68, 0x65], [], [0x6C, 0x6C, 0x6F, 0x0D],
      [0x0A, 0x30, 0x0D], [0x0A, 0x0D, 0x0A]].flatten = encode [hello] last := rfl
  exact (yields_iff hreads).mpr ⟨rfl, rfl⟩

end Lopata.S3

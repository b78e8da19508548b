import Lopata.S3.Chunked

/-!
# Truncated Bodies

A framed body of which only a beginning arrives. The decoder errors the stream if the body breaks
off in the data of a chunk or before the CRLF after it. Where it waits for a size line, it closes
the stream.

## Main definitions

* `cut`: what the first bytes of a body end in.

## Main results

* `yields_truncated`: what the decoder makes of the first bytes of a body, however they are read.
* `detects_truncation`: it errors the stream in a chunk, and closes it after whole frames.
* `truncation_closes`: a body of whole frames without the zero chunk.
-/

namespace Lopata.S3

/-! ### Where a body breaks off -/

/-- What the first bytes of a body end in. -/
inductive Cut
  /-- Nothing, or a whole frame. -/
  | whole
  /-- A size line that is not complete. -/
  | line
  /-- A chunk, or the CRLF after it, that is not complete. -/
  | chunk
  /-- The line of the zero chunk is complete. -/
  | terminated
  deriving DecidableEq

/-- The first `n` bytes. -/
def cut (last : LastFrame) : List Frame → ℕ → Cut
  | [], n =>
      if n = 0 then .whole
      else if n < (last.line.bytes ++ crlf).length then .line
      else .terminated
  | f :: frames, n =>
      if n = 0 then .whole
      else if n < (f.line.bytes ++ crlf).length then .line
      else if n < f.bytes.length then .chunk
      else cut last frames (n - f.bytes.length)

/-- The payload in the first `n` bytes. -/
def received : List Frame → ℕ → Bytes
  | [], _ => []
  | f :: frames, n =>
      f.data.take (n - (f.line.bytes ++ crlf).length) ++ received frames (n - f.bytes.length)

/-- The end of a stream that breaks off after `n` bytes, from the data of a chunk on. -/
def endingAfter (next : ℕ → Ending) (size n : ℕ) : Ending :=
  if n < size then .errored "Unexpected end of aws-chunked stream inside data"
  else if n < size + 2 then .errored "Unexpected end of aws-chunked stream before CRLF"
  else next (n - (size + 2))

def ending : List Frame → ℕ → Ending
  | [], _ => .closed
  | f :: frames, n =>
      if n < (f.line.bytes ++ crlf).length then .closed
      else endingAfter (ending frames) f.data.length (n - (f.line.bytes ++ crlf).length)

theorem Frame.length_bytes (f : Frame) :
    f.bytes.length = (f.line.bytes ++ crlf).length + (f.data.length + 2) := by
  have hcrlf : crlf.length = 2 := rfl
  simp only [Frame.bytes, List.length_append, hcrlf]

theorem received_zero (frames : List Frame) : received frames 0 = [] := by
  induction frames with
  | nil => rfl
  | cons f frames ih =>
    rw [received, Nat.zero_sub, Nat.zero_sub, List.take_zero, ih, List.nil_append]

/-- The part of a chunk that is handed out makes no difference to the end. -/
theorem endingAfter_sub (next : ℕ → Ending) {size n k : ℕ} (hsize : k ≤ size) (hn : k ≤ n) :
    endingAfter next (size - k) (n - k) = endingAfter next size n := by
  have hsub : n - k - (size - k + 2) = n - (size + 2) := by omega
  have hdata : n - k < size - k ↔ n < size := by omega
  have hcrlf : n - k < size - k + 2 ↔ n < size + 2 := by omega
  simp only [endingAfter, hsub, hdata, hcrlf]

/-- The end of a stream, by where it breaks off. -/
theorem ending_cut (last : LastFrame) (frames : List Frame) (n : ℕ) :
    match cut last frames n with
    | .whole | .line | .terminated => ending frames n = .closed
    | .chunk => ∃ message, ending frames n = .errored message := by
  induction frames generalizing n with
  | nil =>
    rw [cut]
    split_ifs <;> rfl
  | cons f frames ih =>
    have hlength := f.length_bytes
    have hpos : 0 < (f.line.bytes ++ crlf).length := by
      rw [List.length_append]
      exact Nat.lt_add_left _ (by decide)
    rw [cut, ending]
    split_ifs with hzero hline hline hchunk
    · rfl
    · omega
    · rfl
    · rw [endingAfter]
      split_ifs
      · exact ⟨_, rfl⟩
      · exact ⟨_, rfl⟩
      · omega
    · have hsub : n - (f.line.bytes ++ crlf).length - (f.data.length + 2) =
          n - f.bytes.length := by omega
      rw [endingAfter, if_neg (by omega), if_neg (by omega), hsub]
      exact ih _

/-! ### The decoder at the end of its input -/

variable {last : LastFrame} {d d' : Decoder} {out : Bytes}

/-- The decoder is in a state of a body of which `n` bytes are still to come; what it hands out
from here, and how it ends. -/
inductive Foresees (last : LastFrame) : Decoder → Bytes → Ending → Prop
  | header {d : Decoder} (frames : List Frame) (n : ℕ) (hstate : d.state = .header)
      (hfailure : d.source.failure = none) (hrest : d.rest = (encode frames last).take n) :
      Foresees last d (received frames n) (ending frames n)
  | data {d : Decoder} {bytes : Bytes} (frames : List Frame) (n : ℕ) (hne : bytes ≠ [])
      (hstate : d.state = .data bytes.length) (hfailure : d.source.failure = none)
      (hrest : d.rest = (bytes ++ (crlf ++ encode frames last)).take n) :
      Foresees last d (bytes.take n ++ received frames (n - (bytes.length + 2)))
        (endingAfter (ending frames) bytes.length n)
  | crlfAfterData {d : Decoder} (frames : List Frame) (n : ℕ) (hstate : d.state = .crlfAfterData)
      (hfailure : d.source.failure = none) (hrest : d.rest = (crlf ++ encode frames last).take n) :
      Foresees last d (received frames (n - 2)) (endingAfter (ending frames) 0 n)

/-- A call of `pull` does what is foreseen. -/
def Pulled.Follows (last : LastFrame) (out : Bytes) (ending : Ending) : Pulled → Prop
  | .enqueue chunk d => ∃ out', out = chunk ++ out' ∧ Foresees last d out' ending
  | .close _ => out = [] ∧ ending = .closed
  | .error message => out = [] ∧ ending = .errored message

def Turn.Follows (last : LastFrame) (out : Bytes) (ending : Ending) : Turn → Prop
  | .again d => Foresees last d out ending
  | .settled p => p.Follows last out ending

theorem Foresees.congr {e : Ending} (h : Foresees last d out e) (hstate : d'.state = d.state)
    (hfailure : d'.source.failure = d.source.failure) (hrest : d'.rest = d.rest) :
    Foresees last d' out e := by
  cases h with
  | header frames n hs hf hr =>
    exact .header frames n (hstate.trans hs) (hfailure.trans hf) (hrest.trans hr)
  | data frames n hne hs hf hr =>
    exact .data frames n hne (hstate.trans hs) (hfailure.trans hf) (hrest.trans hr)
  | crlfAfterData frames n hs hf hr =>
    exact .crlfAfterData frames n (hstate.trans hs) (hfailure.trans hf) (hrest.trans hr)

/-- A read changes nothing, and the end of the input is as foreseen. -/
theorem fill_follows {e : Ending} {ended : Pulled} (h : Foresees last d out e)
    (hfailure : d.source.failure = none)
    (hended : d.source.reads = [] → ended.Follows last out e) :
    (d.fill ended).Follows last out e := by
  rw [Decoder.fill]
  split
  · next value reads hreads =>
    refine h.congr rfl rfl ?_
    rw [Decoder.rest, Decoder.rest, hreads, List.flatten_cons, List.append_assoc]
  · next hreads =>
    rw [hfailure]
    exact hended hreads

/-- A size line that has arrived, with what has arrived of the rest. -/
theorem take_line {line more : Bytes} {n : ℕ} (h : (line ++ crlf).length ≤ n) :
    (line ++ (crlf ++ more)).take n =
      line ++ (crlf ++ more.take (n - (line ++ crlf).length)) := by
  rw [← List.append_assoc, ← List.append_assoc, List.take_append, List.take_of_length_le h]

/-- Before it is there, no line ends in the buffer. -/
theorem indexOfCRLF_short {line : SizeLine} {more : Bytes} {n : ℕ}
    (hrest : d.rest = (line.bytes ++ (crlf ++ more)).take n)
    (h : n < (line.bytes ++ crlf).length) : indexOfCRLF d.buffer = none := by
  by_contra hsome
  obtain ⟨i, hi⟩ := Option.ne_none_iff_exists'.mp hsome
  have hbound := indexOfCRLF_bound hi
  have hwhole := indexOfCRLF_append d.source.reads.flatten hi
  have hrest' : d.buffer ++ d.source.reads.flatten = _ := hrest
  rw [hrest'] at hwhole
  have hall := indexOfCRLF_append ((line.bytes ++ (crlf ++ more)).drop n) hwhole
  rw [List.take_append_drop, indexOfCRLF_line line.indexOfCRLF_bytes] at hall
  have hlength := congrArg List.length hrest'
  simp only [List.length_append, List.length_take] at hlength h
  have hcrlf : crlf.length = 2 := rfl
  have := Option.some.inj hall
  omega

/-- **A size line** that is complete is read; else the stream is closed. -/
theorem turn_header_follows {frames : List Frame} {n : ℕ} (hstate : d.state = .header)
    (hfailure : d.source.failure = none) (hrest : d.rest = (encode frames last).take n) :
    d.turn.Follows last (received frames n) (ending frames n) := by
  have hforesees : Foresees last d _ _ := .header frames n hstate hfailure hrest
  obtain ⟨line, more, hencode, hcases⟩ := encode_cases frames last
  rw [hencode] at hrest
  simp only [Decoder.turn, hstate]
  by_cases hline : n < (line.bytes ++ crlf).length
  · rw [indexOfCRLF_short hrest hline]
    refine fill_follows hforesees hfailure fun _ => ?_
    rcases hcases with ⟨rfl, -⟩ | ⟨f, rest, rfl, rfl, -⟩
    · exact ⟨rfl, rfl⟩
    · have hlength := f.length_bytes
      rw [received, ending, if_pos hline, Nat.sub_eq_zero_of_le hline.le, List.take_zero,
        Nat.sub_eq_zero_of_le (by omega), received_zero]
      exact ⟨rfl, rfl⟩
  · rw [take_line (by omega)] at hrest
    cases hindex : indexOfCRLF d.buffer with
    | none =>
      refine fill_follows hforesees hfailure fun hreads => ?_
      rw [Decoder.rest, hreads, List.flatten_nil, List.append_nil] at hrest
      rw [hrest, indexOfCRLF_line line.indexOfCRLF_bytes] at hindex
      cases hindex
    | some i =>
      obtain ⟨htake, hmore⟩ := line_of_rest hrest hindex
      simp only [htake, line.parse_bytes]
      rcases hcases with ⟨rfl, hzero⟩ | ⟨f, rest, rfl, rfl, rfl⟩
      · rw [hzero]
        exact ⟨rfl, rfl⟩
      · have hpos : 0 < f.data.length := List.length_pos_of_ne_nil f.nonempty
        rw [f.size, if_neg (by omega), received, ending, if_neg hline, f.length_bytes,
          ← Nat.sub_sub]
        exact .data rest _ f.nonempty rfl hfailure hmore

/-- **Data** is handed out as far as it is there. -/
theorem turn_data_follows {frames : List Frame} {bytes : Bytes} {n : ℕ} (hne : bytes ≠ [])
    (hstate : d.state = .data bytes.length) (hfailure : d.source.failure = none)
    (hrest : d.rest = (bytes ++ (crlf ++ encode frames last)).take n) :
    d.turn.Follows last (bytes.take n ++ received frames (n - (bytes.length + 2)))
      (endingAfter (ending frames) bytes.length n) := by
  have hforesees : Foresees last d _ _ := .data frames n hne hstate hfailure hrest
  have hpos : 0 < bytes.length := List.length_pos_of_ne_nil hne
  simp only [Decoder.turn, hstate]
  split
  · next hempty =>
    refine fill_follows hforesees hfailure fun hreads => ?_
    have hn : n = 0 := by
      have hlength := congrArg List.length hrest
      rw [Decoder.rest, hempty, hreads] at hlength
      simp only [List.flatten_nil, List.append_nil, List.length_nil, List.length_take,
        List.length_append] at hlength
      omega
    subst hn
    exact ⟨by simp [received_zero], if_pos hpos⟩
  · next hbuffer =>
    have hpos' : 0 < d.buffer.length := List.length_pos_of_ne_nil hbuffer
    have hmin : min (bytes.length : ℤ) d.buffer.length =
        ((min bytes.length d.buffer.length : ℕ) : ℤ) := by omega
    rw [hmin]
    generalize htake : min bytes.length d.buffer.length = take
    have hle : take ≤ d.buffer.length := by omega
    have hn : take ≤ n := by
      have hlength := congrArg List.length hrest
      simp only [Decoder.rest, List.length_append, List.length_take] at hlength
      omega
    have hchunk : d.buffer.take take = bytes.take take := by
      have htaken := congrArg (List.take take) hrest
      rwa [Decoder.rest, List.take_append_of_le_length hle, List.take_take, Nat.min_eq_left hn,
        List.take_append_of_le_length (by omega)] at htaken
    have hdropped : d.buffer.drop take ++ d.source.reads.flatten =
        (bytes.drop take ++ (crlf ++ encode frames last)).take (n - take) := by
      have hdropped := congrArg (List.drop take) hrest
      rwa [Decoder.rest, List.drop_append_of_le_length hle, List.drop_take,
        List.drop_append_of_le_length (by omega)] at hdropped
    rw [before, after, relativeIndex_natCast hle, hchunk]
    refine ⟨(bytes.drop take).take (n - take) ++ received frames (n - (bytes.length + 2)), ?_, ?_⟩
    · rw [← List.append_assoc, ← List.take_add, Nat.add_sub_cancel' hn]
    · rw [← endingAfter_sub _ (by omega : take ≤ bytes.length) hn]
      split
      · next hall =>
        have hlength : bytes.length = take := by omega
        have hnil : bytes.drop take = [] := List.drop_eq_nil_iff.mpr hlength.le
        rw [hnil, List.nil_append] at hdropped
        rw [hnil, List.take_nil, List.nil_append, hlength, Nat.sub_self, ← Nat.sub_sub]
        exact .crlfAfterData frames (n - take) rfl hfailure hdropped
      · next hmore =>
        have hlength : (bytes.drop take).length = bytes.length - take := List.length_drop
        have hsub : n - (bytes.length + 2) = n - take - ((bytes.drop take).length + 2) := by omega
        rw [hsub, ← hlength]
        refine .data frames (n - take) ?_ ?_ hfailure hdropped
        · exact List.ne_nil_of_length_pos (by omega)
        · exact congrArg Expecting.data (by omega)

/-- **The CRLF after a chunk** is skipped when it is there. -/
theorem turn_crlf_follows {frames : List Frame} {n : ℕ} (hstate : d.state = .crlfAfterData)
    (hfailure : d.source.failure = none) (hrest : d.rest = (crlf ++ encode frames last).take n) :
    d.turn.Follows last (received frames (n - 2)) (endingAfter (ending frames) 0 n) := by
  have hforesees : Foresees last d _ _ := .crlfAfterData frames n hstate hfailure hrest
  have hcrlf : crlf.length = 2 := rfl
  have hlength := congrArg List.length hrest
  simp only [Decoder.rest, List.length_take, List.length_append] at hlength
  simp only [Decoder.turn, hstate]
  split
  · next hshort =>
    refine fill_follows hforesees hfailure fun hreads => ?_
    rw [hreads, List.flatten_nil, List.length_nil] at hlength
    have hn : n < 2 := by omega
    rw [Nat.sub_eq_zero_of_le hn.le, endingAfter, if_neg (by omega), if_pos (by omega)]
    exact ⟨received_zero frames, rfl⟩
  · next hlong =>
    have hn : 2 ≤ n := by omega
    have hnext : endingAfter (ending frames) 0 n = ending frames (n - 2) := by
      rw [endingAfter, if_neg (by omega), if_neg (by omega)]
    rw [hnext]
    refine .header frames (n - 2) rfl hfailure ?_
    have hdrop := congrArg (List.drop 2) hrest
    rwa [Decoder.rest, List.drop_append_of_le_length (by omega), List.drop_take] at hdrop

theorem turn_follows {e : Ending} (h : Foresees last d out e) : d.turn.Follows last out e := by
  cases h with
  | header frames n hstate hfailure hrest => exact turn_header_follows hstate hfailure hrest
  | data frames n hne hstate hfailure hrest => exact turn_data_follows hne hstate hfailure hrest
  | crlfAfterData frames n hstate hfailure hrest => exact turn_crlf_follows hstate hfailure hrest

/-- Each call of `pull` does what is foreseen. -/
theorem pull_follows {e : Ending} (h : Foresees last d out e) : d.pull.Follows last out e := by
  induction d using Decoder.pull.induct with
  | case1 d d' hturn ih =>
    have hfollows := turn_follows h
    rw [hturn] at hfollows
    rw [pull_again hturn]
    exact ih hfollows
  | case2 d p hturn =>
    have hfollows := turn_follows h
    rwa [hturn, ← pull_settled hturn] at hfollows

/-- So does the stream as a whole. -/
theorem yields_of_foresees {e : Ending} (h : Foresees last d out e) : Yields d out e := by
  induction d using Decoder.drain.induct generalizing out with
  | case1 d d' hpull =>
    have hfollows := pull_follows h
    rw [hpull] at hfollows
    obtain ⟨rfl, rfl⟩ := hfollows
    exact .close hpull
  | case2 d message hpull =>
    have hfollows := pull_follows h
    rw [hpull] at hfollows
    obtain ⟨rfl, rfl⟩ := hfollows
    exact .error hpull
  | case3 d chunk d' hpull ih =>
    have hfollows := pull_follows h
    rw [hpull] at hfollows
    obtain ⟨out', rfl, hforesees⟩ := hfollows
    exact .enqueue hpull (ih hforesees)

/-! ### The results -/

/-- What the decoder makes of the first `n` bytes of a body, however they are cut into reads. -/
theorem yields_truncated {frames : List Frame} {n : ℕ} {reads : List Bytes}
    (hreads : reads.flatten = (encode frames last).take n) {e : Ending} :
    Yields (decodeAwsChunked { reads := reads }) out e ↔
      out = received frames n ∧ e = ending frames n := by
  have hyields : Yields (decodeAwsChunked { reads := reads }) _ _ :=
    yields_of_foresees (.header frames n rfl rfl hreads)
  constructor
  · exact fun hother => hother.unique hyields
  · rintro ⟨rfl, rfl⟩
    exact hyields

/-- **Truncated bodies.** What is left of a body that does not end in a size line, however it is
read: if it ends in a chunk or in the CRLF after it, the stream errors and never closes; else it
closes with the payload of the frames there are. -/
theorem detects_truncation (frames : List Frame) (last : LastFrame) (n : ℕ) (reads : List Bytes)
    (hreads : reads.flatten = (encode frames last).take n) (hline : cut last frames n ≠ .line) :
    if cut last frames n = .chunk then
      (∃ out message, Yields (decodeAwsChunked { reads := reads }) out (.errored message)) ∧
        ∀ out, ¬ Yields (decodeAwsChunked { reads := reads }) out .closed
    else Yields (decodeAwsChunked { reads := reads }) (received frames n) .closed := by
  have hending := ending_cut last frames n
  split
  · next hchunk =>
    rw [hchunk] at hending
    obtain ⟨message, hending⟩ := hending
    refine ⟨⟨_, message, (yields_truncated hreads).mpr ⟨rfl, hending.symm⟩⟩, fun out hclosed => ?_⟩
    cases ((yields_truncated hreads).mp hclosed).2.trans hending
  · next hchunk =>
    refine (yields_truncated hreads).mpr ⟨rfl, ?_⟩
    cases hcut : cut last frames n with
    | whole | terminated =>
        rw [hcut] at hending
        exact hending.symm
    | line => exact absurd hcut hline
    | chunk => exact absurd hcut hchunk

theorem not_extended (bytes : Bytes) (h : none = some bytes) : indexOfCRLF bytes = none := by
  cases h

/-- A size line of one digit. -/
def digitLine (digit : Char) (h : isHex digit = true) : SizeLine where
  digits := [digit]
  extension := none
  nonempty := List.cons_ne_nil _ _
  hex := fun _ hc => List.mem_singleton.mp hc ▸ h
  clean := not_extended

/-- A frame of one byte, and the zero chunk. -/
def frameB : Frame where
  line := digitLine '1' rfl
  data := [98]
  nonempty := List.cons_ne_nil _ _
  size := rfl

def zeroFrame : LastFrame where
  line := digitLine '0' rfl
  zero := rfl
  trailers := crlf

/-- The body breaks off before the CRLF after the byte. -/
theorem detects_truncation_frameB :
    cut zeroFrame [frameB] 4 = .chunk ∧
      ∀ out, ¬ Yields (decodeAwsChunked { reads := [[49, 13], [10, 98]] }) out .closed := by
  have hcut : cut zeroFrame [frameB] 4 = .chunk := rfl
  have hdetects := detects_truncation [frameB] zeroFrame 4 [[49, 13], [10, 98]] rfl
    (by rw [hcut]; decide)
  rw [if_pos hcut] at hdetects
  exact ⟨hcut, hdetects.2⟩

/-- It breaks off before the zero chunk. -/
theorem truncation_closes :
    ¬ ∀ (frames : List Frame) (last : LastFrame) (n : ℕ) (reads : List Bytes),
      reads.flatten = (encode frames last).take n →
      n < (frames.flatMap Frame.bytes ++ (last.line.bytes ++ crlf)).length →
      (∃ out message, Yields (decodeAwsChunked { reads := reads }) out (.errored message)) ∧
        ∀ out, ¬ Yields (decodeAwsChunked { reads := reads }) out .closed := by
  intro h
  have hreads : [[49, 13, 10, 98, 13, 10]].flatten = (encode [frameB] zeroFrame).take 6 := rfl
  exact (h [frameB] zeroFrame 6 _ hreads (by decide)).2 [98]
    ((yields_truncated hreads).mpr ⟨rfl, rfl⟩)

end Lopata.S3

import Lopata.Lib.Der

/-!
# RSA Keys as PKCS#1 and PKCS#8

`importKey` takes RSA keys that are PKCS#1 where PKCS#8 is asked for, and puts them into an
envelope. The lengths of the envelope have one, two or three octets.

## Main results

* `wrapped_iff`: the envelope is well-formed and has the key in it exactly below 65514 bytes.
-/

namespace Lopata.Crypto

open Der

/-- `isPkcs1RsaKey`. -/
def isPkcs1RsaKey (data : Bytes) : Bool :=
  if data.length < 10 ∨ data[0]? ≠ some 0x30 then false
  else
    -- the length of the outer sequence is skipped, whatever it is
    let first := (data[1]?.getD 0).toNat
    let offset := if 0x80 ≤ first then 1 + (1 + first % 0x80) else 1 + 1
    if data[offset]? ≠ some 0x02 ∨ data[offset + 1]? ≠ some 0x01 ∨
        data[offset + 2]? ≠ some 0x00 then false
    else data[offset + 3]? = some 0x02

/-- `derEncodeLength`; what is put into a `Uint8Array` is taken modulo 256. -/
def derEncodeLength (length : ℕ) : Bytes :=
  if length < 0x80 then [UInt8.ofNat length]
  else if length < 0x100 then [0x81, UInt8.ofNat length]
  else [0x82, UInt8.ofNat (length / 256), UInt8.ofNat length]

/-- `derWrap`. -/
def derWrap (tag : UInt8) (content : Bytes) : Bytes :=
  tag :: (derEncodeLength content.length ++ content)

def rsaAlgorithmId : Bytes :=
  [0x30, 0x0d, 0x06, 0x09, 0x2a, 0x86, 0x48, 0x86, 0xf7, 0x0d, 0x01, 0x01, 0x01, 0x05, 0x00]

def version : Bytes := [0x02, 0x01, 0x00]

/-- `wrapPkcs1InPkcs8`. -/
def wrapPkcs1InPkcs8 (pkcs1Key : Bytes) : Bytes :=
  let privateKeyOctetString := derWrap 0x04 pkcs1Key
  let inner := version ++ rsaAlgorithmId ++ privateKeyOctetString
  derWrap 0x30 inner

/-! ### What the formats are -/

/-- The object identifier 1.2.840.113549.1.1.1. -/
def rsaEncryption : Bytes := [0x2a, 0x86, 0x48, 0x86, 0xf7, 0x0d, 0x01, 0x01, 0x01]

/-- An RSA key of two primes: the version 0 and eight integers. -/
def IsPkcs1 (bytes : Bytes) : Prop :=
  ∃ body integers, Elements bytes [(0x30, body)] ∧
    Elements body ((0x02, [0x00]) :: integers) ∧ integers.length = 8 ∧
    ∀ element ∈ integers, element.1 = 0x02 ∧ element.2 ≠ []

/-- An envelope with a key in it. -/
structure IsPkcs8 (key bytes : Bytes) : Prop where
  wellFormed : WellFormed bytes
  exists_body : ∃ body algorithm, Elements bytes [(0x30, body)] ∧
    Elements body [(0x02, [0x00]), (0x30, algorithm), (0x04, key)] ∧
    Elements algorithm [(0x06, rsaEncryption), (0x05, [])]

variable {content rest key : Bytes} {tag : UInt8} {n : ℕ}

/-! ### Lengths -/

theorem readLength_derEncodeLength (h : n < 0x10000) :
    readLength (derEncodeLength n ++ rest) = some (n, rest) := by
  rw [derEncodeLength]
  split_ifs with hshort hone
  · have hnat : (UInt8.ofNat n).toNat = n := by
      rw [UInt8.toNat_ofNat']
      omega
    have hread := readLength_short (UInt8.ofNat n) rest (by omega)
    rwa [hnat] at hread
  · have hvalue : bigEndian [UInt8.ofNat n] = n := by
      simp only [bigEndian, List.foldl_cons, List.foldl_nil, UInt8.toNat_ofNat']
      omega
    have hread := readLength_long 0x81 [UInt8.ofNat n] rest rfl
      (by rw [List.length_singleton]; decide) (by omega)
      (by rw [hvalue, List.length_singleton, Nat.sub_self, Nat.pow_zero]; omega)
    rwa [hvalue] at hread
  · have hvalue : bigEndian [UInt8.ofNat (n / 256), UInt8.ofNat n] = n := by
      rw [bigEndian_pair, UInt8.toNat_ofNat', UInt8.toNat_ofNat']
      omega
    have hlen : [UInt8.ofNat (n / 256), UInt8.ofNat n].length = 2 := rfl
    have hread := readLength_long 0x82 [UInt8.ofNat (n / 256), UInt8.ofNat n] rest rfl
      (by rw [hlen]; decide) (by omega) (by rw [hvalue, hlen]; omega)
    rwa [hvalue] at hread

/-- An element whose content is short enough is read back. -/
theorem read_derWrap (h : content.length < 0x10000) :
    read (derWrap tag content) = some (tag, content, []) := by
  rw [derWrap]
  exact read_of_readLength ((List.append_nil content).symm ▸ readLength_derEncodeLength h) rfl

/-- From 65536 on the length that is put is too small. -/
theorem not_read_derWrap {c : Bytes} {t : UInt8} (h : 0x10000 ≤ content.length) :
    read (derWrap tag content) ≠ some (t, c, []) := by
  intro hread
  obtain ⟨-, hlength⟩ := exists_of_read hread
  have hcode : derEncodeLength content.length =
      [0x82, UInt8.ofNat (content.length / 256), UInt8.ofNat content.length] := by
    rw [derEncodeLength, if_neg (by omega), if_neg (by omega)]
  rw [hcode] at hlength
  obtain ⟨hn, hc⟩ := eq_of_readLength [_, _] rfl hlength
  rw [List.append_nil] at hc
  rw [hc, bigEndian_pair] at hn
  have hhigh := (UInt8.ofNat (content.length / 256)).toNat_lt
  have hlow := (UInt8.ofNat content.length).toNat_lt
  omega

/-! ### The envelope -/

/-- The inner part of the envelope. -/
def inner (key : Bytes) : Bytes := version ++ rsaAlgorithmId ++ derWrap 0x04 key

theorem length_derEncodeLength : (derEncodeLength n).length =
    if n < 0x80 then 1 else if n < 0x100 then 2 else 3 := by
  rw [derEncodeLength]
  split_ifs <;> rfl

theorem length_inner : (inner key).length =
    19 + (derEncodeLength key.length).length + key.length := by
  rw [inner, derWrap, List.length_append, List.length_append, List.length_cons,
    List.length_append]
  have hversion : version.length = 3 := rfl
  have halgorithm : rsaAlgorithmId.length = 15 := rfl
  omega

/-- The length of the inner part has at most two octets below 65514 bytes of the key. -/
theorem length_inner_lt_iff : (inner key).length < 0x10000 ↔ key.length < 65514 := by
  rw [length_inner, length_derEncodeLength]
  split_ifs <;> omega

/-- The content of the algorithm. -/
def algorithm : Bytes := 0x06 :: 0x09 :: (rsaEncryption ++ [0x05, 0x00])

theorem read_version : read (version ++ rest) = some (0x02, [0x00], rest) :=
  read_short [0x00] rfl (by decide)

theorem read_rsaAlgorithmId : read (rsaAlgorithmId ++ rest) = some (0x30, algorithm, rest) :=
  read_short algorithm rfl (by decide)

theorem read_rsaEncryption : read algorithm = some (0x06, rsaEncryption, [0x05, 0x00]) :=
  read_short rsaEncryption rfl (by decide)

theorem read_null : read [0x05, 0x00] = some (0x05, [], []) :=
  read_short [] rfl (by decide)

/-- The elements of the inner part, where the key has a length. -/
theorem elements_inner (h : key.length < 0x10000) :
    Elements (inner key) [(0x02, [0x00]), (0x30, algorithm), (0x04, key)] := by
  rw [inner, List.append_assoc]
  exact .cons read_version (.cons read_rsaAlgorithmId (.cons (read_derWrap h) .nil))

theorem wellFormed_inner (h : key.length < 0x10000) : WellFormed (inner key) := by
  have hprimitive : ¬ IsConstructed 0x02 ∧ ¬ IsConstructed 0x04 ∧ ¬ IsConstructed 0x05 ∧
      ¬ IsConstructed 0x06 := by
    simp only [IsConstructed]
    decide
  obtain ⟨hversion, hoctets, hnull, hid⟩ := hprimitive
  have halgorithm : WellFormed algorithm :=
    .cons read_rsaEncryption (absurd · hid) (.cons read_null (absurd · hnull) .nil)
  rw [inner, List.append_assoc]
  exact .cons read_version (absurd · hversion)
    (.cons read_rsaAlgorithmId (fun _ => halgorithm) (.cons (read_derWrap h) (absurd · hoctets) .nil))

theorem wrapPkcs1InPkcs8_eq : wrapPkcs1InPkcs8 key = derWrap 0x30 (inner key) := rfl

/-- The envelope is right exactly if the length of its inner part is. -/
theorem isPkcs8_iff : IsPkcs8 key (wrapPkcs1InPkcs8 key) ↔ (inner key).length < 0x10000 := by
  rw [wrapPkcs1InPkcs8_eq]
  constructor
  · rintro ⟨-, body, -, helements, -⟩
    obtain ⟨rest, hread, hrest⟩ := helements.exists_of_cons
    by_contra hlong
    rw [hrest.eq_nil] at hread
    exact not_read_derWrap (by omega) hread
  · intro hlt
    have hkey : key.length < 0x10000 := by
      rw [length_inner] at hlt
      omega
    have hread : read (derWrap 0x30 (inner key)) = some (0x30, inner key, []) := read_derWrap hlt
    refine ⟨.cons hread (fun _ => wellFormed_inner hkey) .nil, inner key, algorithm,
      .cons hread .nil, elements_inner hkey, ?_⟩
    exact .cons read_rsaEncryption (.cons read_null .nil)

/-! ### Detection -/

theorem take_four_eq {body : Bytes} {w x y z : UInt8} : body.take 4 = [w, x, y, z] ↔
    body[0]? = some w ∧ body[1]? = some x ∧ body[2]? = some y ∧ body[3]? = some z := by
  rcases body with _ | ⟨a, _ | ⟨b, _ | ⟨c, _ | ⟨d, rest⟩⟩⟩⟩ <;> simp

/-- The detection looks at what is behind the length of the outer sequence. -/
theorem isPkcs1RsaKey_cons {b : UInt8} {octets body : Bytes} (h : IsLength b octets) :
    isPkcs1RsaKey (0x30 :: b :: (octets ++ body)) = true ↔
      8 ≤ octets.length + body.length ∧ body.take 4 = [0x02, 0x01, 0x00, 0x02] := by
  have hoffset : (if 0x80 ≤ b.toNat then 1 + (1 + b.toNat % 0x80) else 1 + 1) =
      octets.length + 2 := by
    have hlt := b.toNat_lt
    rcases h with ⟨hshort, rfl⟩ | hlong
    · rw [if_neg (by omega), List.length_nil]
    · rw [if_pos (by omega)]
      omega
  have hget : ∀ i, (0x30 :: b :: (octets ++ body))[octets.length + 2 + i]? = body[i]? := by
    intro i
    rw [Nat.add_right_comm, List.getElem?_cons_succ, List.getElem?_cons_succ,
      List.getElem?_append_right (Nat.le_add_right _ _), Nat.add_sub_cancel_left]
  have hget0 := hget 0
  rw [Nat.add_zero] at hget0
  rw [take_four_eq, isPkcs1RsaKey]
  simp only [List.length_cons, List.length_append, List.getElem?_cons_zero,
    List.getElem?_cons_succ, Option.getD_some, ne_eq, not_true_eq_false, or_false, hoffset, hget,
    hget0]
  split_ifs with hshort hversion
  · refine iff_of_false (fun h => nomatch h) ?_
    rintro ⟨hlong, -⟩
    omega
  · refine iff_of_false (fun h => nomatch h) ?_
    rintro ⟨-, hzero, hone, htwo, -⟩
    rcases hversion with hnot | hnot | hnot
    · exact hnot hzero
    · exact hnot hone
    · exact hnot htwo
  · simp only [not_or, not_not] at hversion
    rw [decide_eq_true_eq]
    exact ⟨fun hthree => ⟨by omega, hversion.1, hversion.2.1, hversion.2.2, hthree⟩,
      fun h => h.2.2.2.2⟩

theorem exists_derEncodeLength (n : ℕ) :
    ∃ b octets, derEncodeLength n = b :: octets ∧ IsLength b octets := by
  rw [derEncodeLength]
  split_ifs with hshort
  · refine ⟨_, [], rfl, .inl ⟨?_, rfl⟩⟩
    rw [UInt8.toNat_ofNat']
    omega
  · exact ⟨_, _, rfl, .inr rfl⟩
  · exact ⟨_, _, rfl, .inr rfl⟩

/-- An envelope is not taken for a key, however long it is. -/
theorem not_isPkcs1RsaKey_wrap : isPkcs1RsaKey (wrapPkcs1InPkcs8 key) = false := by
  obtain ⟨b, octets, hcode, hlength⟩ := exists_derEncodeLength (inner key).length
  rw [wrapPkcs1InPkcs8_eq, derWrap, hcode, List.cons_append, Bool.eq_false_iff, ne_eq,
    isPkcs1RsaKey_cons hlength]
  rintro ⟨-, htake⟩
  have hfourth := (take_four_eq.mp htake).2.2.2
  cases hfourth

/-- The envelope of a key is well-formed, with the key as its inner octet string, and is not taken
for a key itself, exactly if the key has less than 65514 bytes. -/
theorem wrapped_iff (key : Bytes) :
    IsPkcs8 key (wrapPkcs1InPkcs8 key) ∧ isPkcs1RsaKey (wrapPkcs1InPkcs8 key) = false ↔
      key.length < 65514 := by
  rw [isPkcs8_iff, length_inner_lt_iff, and_iff_left not_isPkcs1RsaKey_wrap]

/-- What is in a key with a modulus of 65535 bytes and small other integers. -/
def keyBody (modulus : Bytes) : Bytes :=
  version ++ (0x02 :: 0x82 :: ([0xff, 0xff] ++ (modulus ++
    (List.replicate 7 [0x02, 0x01, 0x01]).flatten)))

def keyOf (modulus : Bytes) : Bytes := 0x30 :: 0x83 :: ([0x01, 0x00, 0x1b] ++ keyBody modulus)

theorem length_keyBody {modulus : Bytes} (h : modulus.length = 65535) :
    (keyBody modulus).length = 65563 := by
  have hversion : version.length = 3 := rfl
  have hothers : (List.replicate 7 [(0x02 : UInt8), 0x01, 0x01]).flatten.length = 21 := rfl
  simp only [keyBody, List.length_append, List.length_cons, List.length_nil, h, hversion, hothers]

theorem length_keyOf {modulus : Bytes} (h : modulus.length = 65535) :
    (keyOf modulus).length = 65568 := by
  simp only [keyOf, List.length_cons, List.length_append, List.length_nil, length_keyBody h]

theorem isPkcs1_keyOf {modulus : Bytes} (h : modulus.length = 65535) : IsPkcs1 (keyOf modulus) := by
  have hbody : read (keyOf modulus) = some (0x30, keyBody modulus, []) := by
    have hlength := readLength_long 0x83 [0x01, 0x00, 0x1b] (keyBody modulus) rfl (by decide) (by decide) (by decide)
    refine read_of_readLength (n := bigEndian [0x01, 0x00, 0x1b]) ?_ (length_keyBody h)
    rw [List.append_nil]
    exact hlength
  have hmodulus : ∀ rest, read (0x02 :: 0x82 :: ([0xff, 0xff] ++ (modulus ++ rest))) =
      some (0x02, modulus, rest) := fun rest =>
    read_of_readLength (readLength_long 0x82 [0xff, 0xff] _ rfl (by decide)
      (by decide) (by decide)) h
  have hone : ∀ rest, read (0x02 :: 0x01 :: ([0x01] ++ rest)) = some (0x02, [0x01], rest) :=
    fun rest => read_short [0x01] rfl (by decide)
  refine ⟨keyBody modulus, (0x02, modulus) :: List.replicate 7 (0x02, [0x01]), .cons hbody .nil,
    .cons read_version (.cons (hmodulus _) ?_), rfl, ?_⟩
  · exact .cons (hone _) (.cons (hone _) (.cons (hone _) (.cons (hone _) (.cons (hone _)
      (.cons (hone _) (.cons (hone []) .nil))))))
  · intro element hmem
    rcases List.mem_cons.mp hmem with rfl | hmem
    · refine ⟨rfl, fun hnil => ?_⟩
      have hnil : modulus = [] := hnil
      rw [hnil] at h
      cases h
    · rw [List.eq_of_mem_replicate hmem]
      exact ⟨rfl, List.cons_ne_nil _ _⟩

def longKey : Bytes := keyOf (List.replicate 65535 1)

/-- The length of the envelope of a long key is put modulo 65536. -/
theorem not_wrapped : IsPkcs1 longKey ∧
    ¬ (IsPkcs8 longKey (wrapPkcs1InPkcs8 longKey) ∧
      isPkcs1RsaKey (wrapPkcs1InPkcs8 longKey) = false) := by
  have hmodulus : (List.replicate 65535 (1 : UInt8)).length = 65535 := List.length_replicate
  refine ⟨isPkcs1_keyOf hmodulus, ?_⟩
  rintro ⟨hwrapped, -⟩
  rw [isPkcs8_iff, length_inner_lt_iff] at hwrapped
  have hlength : longKey.length = 65568 := length_keyOf hmodulus
  omega

/-! ### Importing -/

/-- What `importKey` hands on of the bytes that it gets as PKCS#8. -/
def importedBytes (bytes : Bytes) : Bytes :=
  if isPkcs1RsaKey bytes then wrapPkcs1InPkcs8 bytes else bytes

/-- Behind a version there is the tag of the next element. -/
theorem take_four_of_version {body content : Bytes} {tag : UInt8} {elements : List (UInt8 × Bytes)}
    (h : Elements body ((0x02, [0x00]) :: (tag, content) :: elements)) :
    body.take 4 = [0x02, 0x01, 0x00, tag] := by
  obtain ⟨rest, hread, hrest⟩ := h.exists_of_cons
  obtain ⟨rest', hread', -⟩ := hrest.exists_of_cons
  rw [eq_of_read_short hread (by decide)]
  cases rest with
  | nil => cases hread'
  | cons t rest =>
    obtain ⟨rfl, -⟩ := exists_of_read hread'
    rfl

theorem isPkcs1RsaKey_of_isPkcs1 (h : IsPkcs1 key) : isPkcs1RsaKey key = true := by
  obtain ⟨body, integers, hkey, hbody, hcount, hintegers⟩ := h
  obtain ⟨b, octets, hlength, rfl⟩ := hkey.exists_isLength
  have hlong := hbody.two_mul_length_le
  rw [List.length_cons, hcount] at hlong
  cases integers with
  | nil => cases hcount
  | cons element integers =>
    obtain ⟨tag, content⟩ := element
    obtain rfl : tag = 0x02 := (hintegers _ List.mem_cons_self).1
    rw [isPkcs1RsaKey_cons hlength, take_four_of_version hbody]
    exact ⟨by omega, rfl⟩

theorem not_isPkcs1RsaKey_of_isPkcs8 {bytes : Bytes} (h : IsPkcs8 key bytes) :
    isPkcs1RsaKey bytes = false := by
  obtain ⟨-, body, algorithm, hbytes, hbody, -⟩ := h
  obtain ⟨b, octets, hlength, rfl⟩ := hbytes.exists_isLength
  rw [Bool.eq_false_iff, ne_eq, isPkcs1RsaKey_cons hlength, take_four_of_version hbody]
  rintro ⟨-, htag⟩
  cases htag

/-- **Importing**: a key that is not too long is put into an envelope, an envelope stays what it
is, and nothing is put into an envelope twice. -/
theorem importedBytes_spec :
    (∀ key, IsPkcs1 key → key.length < 65514 → IsPkcs8 key (importedBytes key)) ∧
    (∀ key bytes, IsPkcs8 key bytes → importedBytes bytes = bytes) ∧
    ∀ bytes, importedBytes (importedBytes bytes) = importedBytes bytes := by
  refine ⟨fun key hkey hshort => ?_, fun key bytes hbytes => ?_, fun bytes => ?_⟩
  · rw [importedBytes, if_pos (isPkcs1RsaKey_of_isPkcs1 hkey), isPkcs8_iff, length_inner_lt_iff]
    exact hshort
  · rw [importedBytes, not_isPkcs1RsaKey_of_isPkcs8 hbytes]
    rfl
  · by_cases hkey : isPkcs1RsaKey bytes = true
    · have hwrap : importedBytes bytes = wrapPkcs1InPkcs8 bytes := if_pos hkey
      rw [hwrap, importedBytes, not_isPkcs1RsaKey_wrap]
      rfl
    · have hsame : importedBytes bytes = bytes := if_neg hkey
      rw [hsame, hsame]

end Lopata.Crypto

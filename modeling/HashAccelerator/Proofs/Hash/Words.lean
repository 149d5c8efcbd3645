import Mathlib.Algebra.Group.Nat.Defs
import HashAccelerator.Hash.Chain
/-!
# Words and their bytes

Cutting bytes into words and writing words out as bytes undo each other, and both agree with cutting
a list short. What the engine delivers of a chaining value is, after the exchange of halves, the
words of its big-endian bytes.
-/

namespace HashAccelerator

namespace BigEndian

/-! ## One word, one lane -/

theorem bytes32_word32 (a b c d : UInt8) : bytes32 (word32 a b c d) = [a, b, c, d] := by
  simp only [bytes32, word32, List.cons.injEq, and_true]
  refine ⟨?_, ?_, ?_, ?_⟩ <;> rw [← UInt8.toBitVec_inj] <;> ext i hi <;> simp <;> grind

theorem word32_bytes (w : UInt32) :
    word32 (w >>> 24).toUInt8 (w >>> 16).toUInt8 (w >>> 8).toUInt8 w.toUInt8 = w := by
  rw [← UInt32.toBitVec_inj]
  ext i hi
  simp [word32, -UInt32.toUInt32_toUInt8]
  grind

theorem highHalf_lane (high low : UInt32) : highHalf (lane high low) = high := by
  rw [← UInt32.toBitVec_inj]
  ext i hi
  simp [highHalf, lane]
  grind

theorem lowHalf_lane (high low : UInt32) : lowHalf (lane high low) = low := by
  rw [← UInt32.toBitVec_inj]
  ext i hi
  simp [lowHalf, lane]

theorem lowHalf_exchange (x : UInt64) : lowHalf (exchange x) = highHalf x := by
  rw [← UInt32.toBitVec_inj]
  ext i hi
  simp [lowHalf, highHalf, exchange]

theorem highHalf_exchange (x : UInt64) : highHalf (exchange x) = lowHalf x := by
  rw [← UInt32.toBitVec_inj]
  ext i hi
  simp [lowHalf, highHalf, exchange]
  grind

/-! ## What is too short to cut -/

theorem words32_of_lt {bytes : List UInt8} (h : bytes.length < 4) : words32 bytes = [] := by
  unfold words32
  split
  · simp only [List.length_cons] at h
    omega
  · rfl

theorem length_lt_of_no_word {bytes : List UInt8}
    (hshort : ∀ a b c d rest, bytes = a :: b :: c :: d :: rest → False) : bytes.length < 4 := by
  rcases bytes with _ | ⟨a, _ | ⟨b, _ | ⟨c, _ | ⟨d, rest⟩⟩⟩⟩
  all_goals first | exact absurd rfl (hshort a b c d rest) | simp

theorem lanes_of_lt {ws : List UInt32} (h : ws.length < 2) : lanes ws = [] := by
  unfold lanes
  split
  · simp only [List.length_cons] at h
    omega
  · rfl

theorem exchangeHalves_of_lt {ws : List UInt32} (h : ws.length < 2) : exchangeHalves ws = ws := by
  unfold exchangeHalves
  split
  · simp only [List.length_cons] at h
    omega
  · rfl

theorem length_lt_of_no_pair {ws : List UInt32}
    (hshort : ∀ first second rest, ws = first :: second :: rest → False) : ws.length < 2 := by
  rcases ws with _ | ⟨first, _ | ⟨second, rest⟩⟩
  all_goals first | exact absurd rfl (hshort first second rest) | simp

/-! ## Words of bytes -/

theorem words32_bytes32_append (w : UInt32) (rest : List UInt8) :
    words32 (bytes32 w ++ rest) = w :: words32 rest := by
  simp only [bytes32, List.cons_append, List.nil_append, words32, word32_bytes]

/-- **The words of written-out words** are the words. -/
theorem words32_flatMap_bytes32 (ws : List UInt32) : words32 (ws.flatMap bytes32) = ws := by
  induction ws with
  | nil => rfl
  | cons w ws ih => rw [List.flatMap_cons, words32_bytes32_append, ih]

/-- **Whole words written out again** are the bytes. -/
theorem flatMap_bytes32_words32 {bytes : List UInt8} (h : 4 ∣ bytes.length) :
    (words32 bytes).flatMap bytes32 = bytes := by
  induction bytes using words32.induct with
  | case1 a b c d rest ih =>
    have hrest : 4 ∣ rest.length := by
      simp only [List.length_cons] at h
      omega
    rw [words32, List.flatMap_cons, ih hrest, bytes32_word32]
    rfl
  | case2 bytes hshort =>
    have hlt := length_lt_of_no_word hshort
    obtain rfl : bytes = [] := List.eq_nil_of_length_eq_zero (by omega)
    rfl

theorem length_words32 (bytes : List UInt8) : (words32 bytes).length = bytes.length / 4 := by
  induction bytes using words32.induct with
  | case1 a b c d rest ih =>
    simp only [words32, List.length_cons, ih]
    omega
  | case2 bytes hshort =>
    have hlt := length_lt_of_no_word hshort
    rw [words32_of_lt hlt, Nat.div_eq_of_lt hlt, List.length_nil]

theorem length_flatMap_bytes32 (ws : List UInt32) :
    (ws.flatMap bytes32).length = 4 * ws.length := by
  induction ws with
  | nil => rfl
  | cons w ws ih =>
    rw [List.flatMap_cons, List.length_append, ih]
    simp only [bytes32, List.length_cons, List.length_nil]
    omega

theorem take_flatMap_bytes32 (ws : List UInt32) (n : Nat) :
    (ws.flatMap bytes32).take (4 * n) = (ws.take n).flatMap bytes32 := by
  induction ws generalizing n with
  | nil => simp
  | cons w ws ih =>
    cases n with
    | zero => simp
    | succ n =>
      have hlength : 4 * (n + 1) = 4 * n + (bytes32 w).length := by simp [bytes32]; omega
      rw [List.flatMap_cons, hlength, Nat.add_comm, List.take_length_add_append, ih]
      simp

theorem take_words32 (bytes : List UInt8) (n : Nat) :
    (words32 bytes).take n = words32 (bytes.take (4 * n)) := by
  induction bytes using words32.induct generalizing n with
  | case1 a b c d rest ih =>
    cases n with
    | zero => simp [words32]
    | succ n =>
      rw [words32, List.take_succ_cons, ih, Nat.mul_succ]
      simp [words32]
  | case2 bytes hshort =>
    have hlt := length_lt_of_no_word hshort
    have htake : (bytes.take (4 * n)).length < 4 := by
      rw [List.length_take]
      omega
    rw [words32_of_lt hlt, words32_of_lt htake, List.take_nil]

/-! ## Lanes of words -/

theorem exchangeHalves_flatMap (xs : List UInt64) :
    exchangeHalves (xs.flatMap fun x => [lowHalf x, highHalf x]) =
      xs.flatMap fun x => [highHalf x, lowHalf x] := by
  induction xs with
  | nil => rfl
  | cons x xs ih => simpa [exchangeHalves] using ih

theorem length_exchangeHalves (ws : List UInt32) : (exchangeHalves ws).length = ws.length := by
  induction ws using exchangeHalves.induct with
  | case1 first second rest ih =>
    unfold exchangeHalves
    simp only [List.length_cons, ih]
  | case2 ws hshort => rw [exchangeHalves_of_lt (length_lt_of_no_pair hshort)]

/-- An even number of words can be cut off before or after the exchange. -/
theorem take_exchangeHalves (ws : List UInt32) (n : Nat) :
    exchangeHalves (ws.take (2 * n)) = (exchangeHalves ws).take (2 * n) := by
  induction ws using exchangeHalves.induct generalizing n with
  | case1 first second rest ih =>
    cases n with
    | zero => rfl
    | succ n => simp [exchangeHalves, Nat.mul_succ, ih]
  | case2 ws hshort =>
    have hlt := length_lt_of_no_pair hshort
    have htake : (ws.take (2 * n)).length < 2 := by
      rw [List.length_take]
      omega
    rw [exchangeHalves_of_lt hlt, exchangeHalves_of_lt htake]

/-- **In an even number of words each stands at the other place of its pair.** -/
theorem getElem?_exchangeHalves {ws : List UInt32} (h : ws.length % 2 = 0) (i : Nat) :
    (exchangeHalves ws)[i]? = ws[if i % 2 = 0 then i + 1 else i - 1]? := by
  induction ws using exchangeHalves.induct generalizing i with
  | case1 first second rest ih =>
    have hrest : rest.length % 2 = 0 := by
      rw [List.length_cons, List.length_cons] at h
      omega
    rw [exchangeHalves]
    rcases i with _ | _ | i
    · rfl
    · rfl
    · have hpartner : (if (i + 2) % 2 = 0 then i + 2 + 1 else i + 2 - 1) =
          (if i % 2 = 0 then i + 1 else i - 1) + 2 := by
        split <;> split <;> omega
      rw [List.getElem?_cons_succ, List.getElem?_cons_succ, ih hrest, hpartner]
      rfl
  | case2 ws hshort =>
    have hempty : ws = [] := List.length_eq_zero_iff.1 (by
      have hlt := length_lt_of_no_pair hshort
      omega)
    rw [hempty]
    rfl

theorem flatMap_bytes64 (xs : List UInt64) :
    xs.flatMap bytes64 = (xs.flatMap fun x => [highHalf x, lowHalf x]).flatMap bytes32 := by
  induction xs with
  | nil => rfl
  | cons x xs ih => simp [bytes64, ih]

/-- **Lanes written out** are the words that they were made of. -/
theorem flatMap_bytes64_lanes {ws : List UInt32} (h : 2 ∣ ws.length) :
    (lanes ws).flatMap bytes64 = ws.flatMap bytes32 := by
  induction ws using lanes.induct with
  | case1 high low rest ih =>
    have hrest : 2 ∣ rest.length := by
      simp only [List.length_cons] at h
      omega
    simp [lanes, bytes64, highHalf_lane, lowHalf_lane, ih hrest]
  | case2 ws hshort =>
    have hlt := length_lt_of_no_pair hshort
    obtain rfl : ws = [] := List.eq_nil_of_length_eq_zero (by omega)
    rfl

theorem take_lanes (ws : List UInt32) (n : Nat) :
    (lanes ws).take n = lanes (ws.take (2 * n)) := by
  induction ws using lanes.induct generalizing n with
  | case1 high low rest ih =>
    cases n with
    | zero => rfl
    | succ n => simp [lanes, Nat.mul_succ, ih]
  | case2 ws hshort =>
    have hlt := length_lt_of_no_pair hshort
    have htake : (ws.take (2 * n)).length < 2 := by
      rw [List.length_take]
      omega
    rw [lanes_of_lt hlt, lanes_of_lt htake, List.take_nil]

/-! ## Numbers -/

theorem length_ofNat (length value : Nat) : (ofNat length value).length = length := by
  induction length generalizing value with
  | zero => rfl
  | succ length ih => rw [ofNat, List.length_append, ih, List.length_singleton]

/-- The upper bytes of a number come before the lower ones. -/
theorem ofNat_add (upper lower value : Nat) :
    ofNat (upper + lower) value = ofNat upper (value / 256 ^ lower) ++ ofNat lower value := by
  induction lower generalizing value with
  | zero => simp [ofNat]
  | succ lower ih =>
    rw [← Nat.add_assoc, ofNat, ih, ofNat, List.append_assoc, Nat.div_div_eq_div_mul,
      Nat.pow_succ']

/-- **Only the lowest bytes count.** -/
theorem ofNat_congr {length value value' : Nat} (h : value % 256 ^ length = value' % 256 ^ length) :
    ofNat length value = ofNat length value' := by
  induction length generalizing value value' with
  | zero => rfl
  | succ length ih =>
    have hupper : value / 256 % 256 ^ length = value' / 256 % 256 ^ length := by
      rw [← Nat.mod_mul_right_div_self, ← Nat.mod_mul_right_div_self, ← Nat.pow_succ', h]
    have hlowest : value % 256 = value' % 256 := by
      have hdvd : 256 ∣ 256 ^ (length + 1) := Nat.dvd_mul_left 256 (256 ^ length)
      rw [← Nat.mod_mod_of_dvd value hdvd, h, Nat.mod_mod_of_dvd value' hdvd]
    rw [ofNat, ofNat, ih hupper, hlowest]

/-- The number that some bytes are, the most significant first. -/
def toNat (bytes : List UInt8) : Nat := bytes.foldl (fun value byte => 256 * value + byte.toNat) 0

/-- **A number that has room** in its bytes is what they say. -/
theorem toNat_ofNat {length value : Nat} (h : value < 256 ^ length) :
    toNat (ofNat length value) = value := by
  induction length generalizing value with
  | zero =>
    rw [Nat.pow_zero] at h
    exact (Nat.lt_one_iff.1 h).symm
  | succ length ih =>
    have hupper : value / 256 < 256 ^ length := by
      rw [Nat.pow_succ] at h
      exact Nat.div_lt_of_lt_mul (Nat.mul_comm _ _ ▸ h)
    have hfront := ih hupper
    have hlowest : (UInt8.ofNat (value % 256)).toNat = value % 256 := by simp
    rw [toNat] at hfront
    rw [toNat, ofNat, List.foldl_append, hfront, List.foldl_cons, List.foldl_nil, hlowest]
    exact Nat.div_add_mod value 256

theorem bytes32_eq_ofNat (w : UInt32) : bytes32 w = ofNat 4 w.toNat := by
  simp only [bytes32, ofNat, List.nil_append, List.cons_append, List.cons.injEq, and_true]
  refine ⟨?_, ?_, ?_, ?_⟩ <;> rw [← UInt8.toNat_inj] <;>
    simp [Nat.shiftRight_eq_div_pow, Nat.div_div_eq_div_mul]

/-- **The bytes of a lane** are those of its number. -/
theorem bytes64_eq_ofNat (x : UInt64) : bytes64 x = ofNat 8 x.toNat := by
  rw [bytes64, bytes32_eq_ofNat, bytes32_eq_ofNat, ofNat_add 4 4]
  congr 1
  · refine ofNat_congr ?_
    simp [highHalf, Nat.shiftRight_eq_div_pow]
  · refine ofNat_congr ?_
    simp [lowHalf]

end BigEndian

/-! ## Chaining values -/

/-- Any bytes that are enough for a digest can be cut to one. -/
theorem cutDigest_of_le {bytes : List UInt8} {algorithm : Algorithm}
    (h : algorithm.digestSize ≤ bytes.length) :
    cutDigest bytes algorithm.digestSize = .ok (bytes.take algorithm.digestSize) := by
  have hle : algorithm.digestSize ≤ maxDigestSize := by cases algorithm <;> decide
  unfold cutDigest
  rw [if_pos ⟨h, hle⟩]

namespace Chain

open BigEndian

/-- The words of a chaining value in digest order. -/
def digestOrder (chain : Chain) : List UInt32 := words32 chain.bytes

theorem digestOrder_narrow (words : Vector UInt32 8) :
    (narrow words).digestOrder = words.toList :=
  words32_flatMap_bytes32 words.toList

theorem digestOrder_wide (xs : Vector UInt64 8) :
    (wide xs).digestOrder = xs.toList.flatMap fun x => [highHalf x, lowHalf x] := by
  rw [digestOrder, bytes, flatMap_bytes64, words32_flatMap_bytes32]

theorem length_bytes (chain : Chain) : chain.bytes.length = if chain.isWide then 64 else 32 := by
  cases chain with
  | narrow words => rw [bytes, length_flatMap_bytes32]; simp [isWide]
  | wide xs =>
    rw [bytes, flatMap_bytes64, length_flatMap_bytes32]
    simp [isWide, List.length_flatMap, List.map_const']

theorem length_digestOrder (chain : Chain) :
    chain.digestOrder.length = if chain.isWide then 16 else 8 := by
  rw [digestOrder, length_words32, length_bytes]
  split <;> rfl

/-- **A readout is the front of the digest's words**, once the halves of wide lanes are exchanged. -/
theorem exchange_readoutWords {chain : Chain} {algorithm : Algorithm}
    (h : chain.isWide = algorithm.isWide) :
    (if algorithm.isWide then exchangeHalves (chain.readoutWords.take algorithm.digestWords)
      else chain.readoutWords.take algorithm.digestWords) =
      chain.digestOrder.take algorithm.digestWords := by
  cases chain with
  | narrow words =>
    have hnarrow : algorithm.isWide = false := h.symm
    rw [hnarrow, digestOrder_narrow]
    rfl
  | wide xs =>
    have hwide : algorithm.isWide = true := h.symm
    have heven : algorithm.digestWords = 2 * (algorithm.digestSize / 8) := by
      cases algorithm <;> first | rfl | cases hwide
    rw [if_pos hwide, heven, take_exchangeHalves, digestOrder_wide, readoutWords,
      exchangeHalves_flatMap]

/-- A chaining value of the algorithm's width has the digest's bytes. -/
theorem digestSize_le {chain : Chain} {algorithm : Algorithm}
    (h : chain.isWide = algorithm.isWide) : algorithm.digestSize ≤ chain.bytes.length := by
  rw [length_bytes, h]
  cases algorithm <;> decide

theorem digest_eq {chain : Chain} {algorithm : Algorithm} (h : chain.isWide = algorithm.isWide) :
    chain.digest algorithm = .ok (chain.bytes.take algorithm.digestSize) :=
  cutDigest_of_le (digestSize_le h)

/-- And the words of the digest are the front of its words. -/
theorem words32_digest (chain : Chain) (algorithm : Algorithm) :
    words32 (chain.bytes.take algorithm.digestSize) =
      chain.digestOrder.take algorithm.digestWords := by
  have hsize : algorithm.digestSize = 4 * algorithm.digestWords := by cases algorithm <;> rfl
  rw [hsize, digestOrder, take_words32]

end Chain

end HashAccelerator

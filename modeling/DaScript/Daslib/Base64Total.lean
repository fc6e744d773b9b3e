import DaScript.Daslib.Base64RoundTrip

/-!
# Daslib/Base64Total — what the decoder does with any bytes

`decodeAt` is the loop of `base64_decode` with each of its indices looked at.  Those into the text
and the table are in range always (`decodeAt_eq`); into `out`, which has three bytes for each four
characters that are whole, it writes one behind the end where a character follows them.
-/

namespace DaScript.Base64

open Text

/-! ## Every index is looked at -/

/-- `int(inp[k])` -/
def inpAt (inp : List UInt8) (k : ℤ) : Except Fault ℕ :=
  if 0 ≤ k ∧ k < inp.length then .ok (byteAt inp k.toNat)
  else .error (.throw "array index out of range")

/-- `base64de[k]` -/
def deAt (k : ℤ) : Except Fault ℤ :=
  if 0 ≤ k ∧ k < base64de.length then .ok (base64de.getD k.toNat 0)
  else .error (.throw "dim index out of range")

/-- `i < (inlen - k) || int(inp[inlen - k + 1]) != BASE64_PAD` -/
def moreAt (inp : List UInt8) (i k : ℤ) : Except Fault Bool :=
  if i < inp.length - k then .ok true
  else do
    let ii ← inpAt inp (inp.length - k + 1)
    pure (decide (ii ≠ base64Pad))

/-- What a turn of the loop does with the value of a character. -/
def decodeCharAt (inp : List UInt8) (i c : ℕ) (st : List UInt8 × ℕ) :
    Except Fault (List UInt8 × ℕ) :=
  let (out, j) := st
  if i % 4 = 0 then do
    let out ← put out j (UInt8.ofNat (c <<< 2 &&& 0xFF))
    pure (out, j)
  else if i % 4 = 1 then do
    let v ← fetch out j
    let out ← put out j (UInt8.ofNat (v.toNat + (c >>> 4 &&& 0x3)))
    let more ← moreAt inp i 3
    if more then do
      let out ← put out (j + 1) (UInt8.ofNat ((c &&& 0xF) <<< 4))
      pure (out, j + 1)
    else pure (out, j + 1)
  else if i % 4 = 2 then do
    let v ← fetch out j
    let out ← put out j (UInt8.ofNat (v.toNat + (c >>> 2 &&& 0xF)))
    let more ← moreAt inp i 2
    if more then do
      let out ← put out (j + 1) (UInt8.ofNat ((c &&& 0x3) <<< 6))
      pure (out, j + 1)
    else pure (out, j + 1)
  else do
    let v ← fetch out j
    let out ← put out j (UInt8.ofNat (v.toNat + c))
    pure (out, j + 1)

/-- The loop of `base64_decode`. -/
def decodeAt (inp : List UInt8) : ℕ → ℕ → List UInt8 × ℕ → Except Fault (ℤ × List UInt8)
  | 0, _, st => finish st
  | n + 1, i, st => do
    let ii ← inpAt inp i
    if ii = base64Pad then finish st
    else if ii < base64deFirst ∨ base64deLast < ii then .ok (-1, st.1)
    else do
      let c ← deAt (ii - base64deFirst)
      if c = -1 then .ok (-1, st.1)
      else do
        let st ← decodeCharAt inp i c.toNat st
        decodeAt inp n (i + 1) st

/-- `base64_decode` of an array. -/
def base64DecodeAt (inp : List UInt8) : Except Fault (ℤ × List UInt8) := do
  let inlen ← length inp
  let out ← resize [] (base64DecodeOutSize inlen)
  decodeAt inp inp.length 0 (out, 0)

section InRange

variable {inp : List UInt8} {i : ℕ}

theorem inpAt_ok (hi : i < inp.length) : inpAt inp i = .ok (byteAt inp i) :=
  if_pos ⟨by omega, by omega⟩

theorem deAt_ok {ii : ℕ} (h : ¬ (ii < base64deFirst ∨ base64deLast < ii)) :
    deAt (ii - base64deFirst) = .ok (base64de.getD (ii - base64deFirst) 0) := by
  have hfirst : base64deFirst ≤ ii := not_lt.mp fun hlt => h (.inl hlt)
  have hlast : ii ≤ base64deLast := not_lt.mp fun hlt => h (.inr hlt)
  have hlength : base64deLast < base64deFirst + base64de.length := by decide
  rw [deAt, ← Int.ofNat_sub hfirst, if_pos ⟨by omega, by omega⟩, Int.toNat_natCast]

theorem moreAt_ok {k : ℕ} (hi : i < inp.length) (hk : k ≤ i + 2) (hpos : 2 ≤ k) :
    moreAt inp i k = .ok (decide ((i : ℤ) < inp.length - k ∨
      byteAt inp (inp.length - (k - 1)) ≠ base64Pad)) := by
  rw [moreAt]
  by_cases hbefore : (i : ℤ) < inp.length - k
  · rw [if_pos hbefore, decide_eq_true (.inl hbefore)]
  · have hindex : (inp.length : ℤ) - k + 1 = (inp.length - (k - 1) : ℕ) := by omega
    rw [if_neg hbefore, hindex, inpAt_ok (by omega)]
    simp only [hbefore, false_or]
    rfl

theorem decodeCharAt_eq (hi : i < inp.length) (c : ℕ) (st : List UInt8 × ℕ) :
    decodeCharAt inp i c st = decodeChar inp i c st := by
  obtain ⟨out, j⟩ := st
  change (if i % 4 = 0 then _ else _) = (if i % 4 = 0 then _ else _)
  by_cases h0 : i % 4 = 0
  · rw [if_pos h0, if_pos h0]
  rw [if_neg h0, if_neg h0]
  by_cases h1 : i % 4 = 1
  · rw [if_pos h1, if_pos h1, show (3 : ℤ) = (3 : ℕ) from rfl, moreAt_ok hi (by omega) (by decide)]
    refine bind_congr fun v => bind_congr fun out => ?_
    exact if_congr decide_eq_true_iff rfl rfl
  rw [if_neg h1, if_neg h1]
  by_cases h2 : i % 4 = 2
  · rw [if_pos h2, if_pos h2, show (2 : ℤ) = (2 : ℕ) from rfl, moreAt_ok hi (by omega) le_rfl]
    refine bind_congr fun v => bind_congr fun out => ?_
    exact if_congr decide_eq_true_iff rfl rfl
  · rw [if_neg h2, if_neg h2]

theorem decodeAt_eq (inp : List UInt8) (n : ℕ) : ∀ (i : ℕ) (st : List UInt8 × ℕ),
    i + n = inp.length → decodeAt inp n i st = decodeFrom inp n i st := by
  induction n with
  | zero => exact fun _ _ _ => rfl
  | succ n ih =>
    intro i st hi
    rw [decodeAt, decodeFrom, inpAt_ok (by omega)]
    change (if byteAt inp i = base64Pad then _ else _) = _
    dsimp only
    refine ite_congr rfl (fun _ => rfl) fun _ => ite_congr rfl (fun _ => rfl) fun hout => ?_
    rw [deAt_ok hout]
    change (if _ = (-1 : ℤ) then _ else _) = _
    refine ite_congr rfl (fun _ => rfl) fun _ => ?_
    rw [decodeCharAt_eq (by omega)]
    exact bind_congr fun st => ih (i + 1) st (by omega)

theorem base64DecodeAt_eq (inp : List UInt8) : base64DecodeAt inp = base64DecodeArray inp :=
  bind_congr fun _ => bind_congr fun _ => decodeAt_eq inp _ _ _ (Nat.zero_add _)

end InRange

/-! ## Where it stops -/

/-- The bytes that are complete before the `i`-th character. -/
def writtenBefore (i : ℕ) : ℕ := 3 * (i / 4) + (i % 4 - 1)

section Turn

variable {inp : List UInt8} {i : ℕ} {st : List UInt8 × ℕ}

theorem put_eq_ok {out : List UInt8} {j : ℕ} (hj : j < out.length) (c : UInt8) :
    ∃ out', put out j c = .ok out' ∧ out'.length = out.length :=
  ⟨out.set j c, if_pos hj, List.length_set⟩

theorem decodeChar_room (hi : i < 4 * (inp.length / 4)) (hout : st.1.length = 3 * (inp.length / 4))
    (hj : st.2 = writtenBefore i) (c : ℕ) :
    ∃ st', decodeChar inp i c st = .ok st' ∧ st'.1.length = 3 * (inp.length / 4) ∧
      st'.2 = writtenBefore (i + 1) := by
  obtain ⟨out, j⟩ := st
  dsimp only at hout hj
  rw [writtenBefore] at hj
  rw [writtenBefore]
  have hroom : j < out.length := by omega
  -- the byte is completed, and maybe the next one begun
  have hnext : ∀ (q : ℕ) (d : UInt8) (more : Prop) [Decidable more], j + 1 < out.length →
      ∃ st', (do
        let v ← fetch out j
        let out ← put out j (UInt8.ofNat (v.toNat + q))
        if more then do
          let out ← put out (j + 1) d
          pure (out, j + 1)
        else pure (out, j + 1) : Except Fault (List UInt8 × ℕ)) = .ok st' ∧
        st'.1.length = 3 * (inp.length / 4) ∧ st'.2 = j + 1 := by
    intro q d more _ hnext
    obtain ⟨out', hput, hlength⟩ := put_eq_ok hroom (UInt8.ofNat ((out.getD j 0).toNat + q))
    obtain ⟨out'', hput', hlength'⟩ := put_eq_ok (hlength ▸ hnext) d
    by_cases hmore : more
    · refine ⟨(out'', j + 1), bind_eq_ok.mpr ⟨_, if_pos hroom, bind_eq_ok.mpr ⟨_, hput, ?_⟩⟩,
        hlength'.trans (hlength.trans hout), rfl⟩
      rw [if_pos hmore]
      exact bind_eq_ok.mpr ⟨_, hput', rfl⟩
    · refine ⟨(out', j + 1), bind_eq_ok.mpr ⟨_, if_pos hroom, bind_eq_ok.mpr ⟨_, hput, ?_⟩⟩,
        hlength.trans hout, rfl⟩
      rw [if_neg hmore]
      rfl
  change ∃ st', (if i % 4 = 0 then _ else _) = Except.ok st' ∧ _
  by_cases h0 : i % 4 = 0
  · obtain ⟨out', hput, hlength⟩ := put_eq_ok hroom (UInt8.ofNat (c <<< 2 &&& 0xFF))
    rw [if_pos h0]
    exact ⟨(out', j), bind_eq_ok.mpr ⟨_, hput, rfl⟩, hlength.trans hout, by dsimp only; omega⟩
  rw [if_neg h0]
  by_cases h1 : i % 4 = 1
  · obtain ⟨st', hst, hlength, hj'⟩ := hnext (c >>> 4 &&& 0x3) (UInt8.ofNat ((c &&& 0xF) <<< 4))
      ((i : ℤ) < inp.length - 3 ∨ byteAt inp (inp.length - 2) ≠ base64Pad) (by omega)
    rw [if_pos h1]
    exact ⟨st', hst, hlength, by omega⟩
  rw [if_neg h1]
  by_cases h2 : i % 4 = 2
  · obtain ⟨st', hst, hlength, hj'⟩ := hnext (c >>> 2 &&& 0xF) (UInt8.ofNat ((c &&& 0x3) <<< 6))
      ((i : ℤ) < inp.length - 2 ∨ byteAt inp (inp.length - 1) ≠ base64Pad) (by omega)
    rw [if_pos h2]
    exact ⟨st', hst, hlength, by omega⟩
  obtain ⟨out', hput, hlength⟩ := put_eq_ok hroom (UInt8.ofNat ((out.getD j 0).toNat + c))
  rw [if_neg h2]
  exact ⟨(out', j + 1), bind_eq_ok.mpr ⟨out.getD j 0, if_pos hroom,
    bind_eq_ok.mpr ⟨_, hput, rfl⟩⟩, hlength.trans hout, by dsimp only; omega⟩

theorem decodeChar_full (hout : st.1.length = 3 * (inp.length / 4))
    (hj : st.2 = writtenBefore (4 * (inp.length / 4))) (c : ℕ) :
    decodeChar inp (4 * (inp.length / 4)) c st = .error (.throw "array index out of range") := by
  obtain ⟨out, j⟩ := st
  dsimp only at hout hj
  rw [writtenBefore] at hj
  change (if 4 * (inp.length / 4) % 4 = 0 then _ else _) = _
  rw [if_pos (by omega), put, if_neg (by omega)]
  rfl

end Turn

/-- **The call returns** `-1`, or the number of bytes in `out`. -/
def Returns (result : Except Fault (ℤ × List UInt8)) : Prop :=
  ∃ n out, result = .ok (n, out) ∧ (n = -1 ∨ n = out.length)

theorem returns_finish (st : List UInt8 × ℕ) : Returns (finish st) := by
  refine ⟨st.2, st.1.take st.2 ++ List.replicate (st.2 - st.1.length) 0, ?_, .inr ?_⟩
  · rw [finish, resize, if_neg (by omega), Int.toNat_natCast]
    rfl
  · rw [List.length_append, List.length_take, List.length_replicate]
    omega

theorem stops_iff : ∀ ii < 256, UInt8.ofNat ii ∉ base64en ↔ ii = base64Pad ∨
    (ii < base64deFirst ∨ base64deLast < ii) ∨ base64de.getD (ii - base64deFirst) 0 = -1 := by
  decide +kernel

theorem decodeFrom_turn {inp : List UInt8} {i : ℕ} (hi : i < inp.length) (n : ℕ)
    (st : List UInt8 × ℕ) :
    (inp[i] ∉ base64en ∧ Returns (decodeFrom inp (n + 1) i st)) ∨
      (inp[i] ∈ base64en ∧ ∃ c, decodeFrom inp (n + 1) i st =
        decodeChar inp i c st >>= decodeFrom inp n (i + 1)) := by
  have hbyte : UInt8.ofNat (byteAt inp i) = inp[i] := by
    rw [byteAt, List.getD_eq_getElem _ _ hi, UInt8.ofNat_toNat]
  have hstops := stops_iff _ (byteAt_lt inp i)
  rw [hbyte] at hstops
  rw [decodeFrom]
  dsimp only
  by_cases hpad : byteAt inp i = base64Pad
  · rw [if_pos hpad]
    exact .inl ⟨hstops.mpr (.inl hpad), returns_finish st⟩
  rw [if_neg hpad]
  by_cases hout : byteAt inp i < base64deFirst ∨ base64deLast < byteAt inp i
  · rw [if_pos hout]
    exact .inl ⟨hstops.mpr (.inr (.inl hout)), -1, st.1, rfl, .inl rfl⟩
  rw [if_neg hout]
  by_cases hno : base64de.getD (byteAt inp i - base64deFirst) 0 = -1
  · rw [if_pos hno]
    exact .inl ⟨hstops.mpr (.inr (.inr hno)), -1, st.1, rfl, .inl rfl⟩
  rw [if_neg hno]
  exact .inr ⟨not_not.mp fun hmem => (hstops.mp hmem).elim hpad fun h => h.elim hout hno, _, rfl⟩

theorem decodeFrom_returns_iff {inp : List UInt8} (n : ℕ) : ∀ (i : ℕ) (st : List UInt8 × ℕ),
    i + n = inp.length → i ≤ 4 * (inp.length / 4) → st.1.length = 3 * (inp.length / 4) →
    st.2 = writtenBefore i →
    (Returns (decodeFrom inp n i st) ↔ inp.length % 4 = 0 ∨
      ∃ k, i ≤ k ∧ k ≤ 4 * (inp.length / 4) ∧ ∃ c, inp[k]? = some c ∧ c ∉ base64en) := by
  induction n with
  | zero =>
    intro i st hi hle _ _
    exact iff_of_true (returns_finish st) (.inl (by omega))
  | succ n ih =>
    intro i st hi hle hout hj
    have hlt : i < inp.length := by omega
    rcases decodeFrom_turn hlt n st with ⟨hmem, hreturns⟩ | ⟨hmem, c, hturn⟩
    · exact iff_of_true hreturns
        (.inr ⟨i, le_rfl, hle, inp[i], List.getElem?_eq_getElem hlt, hmem⟩)
    rw [hturn]
    rcases hle.eq_or_lt with rfl | hbefore
    · rw [decodeChar_full hout hj]
      refine iff_of_false ?_ ?_
      · rintro ⟨n, out, herror, -⟩
        cases herror
      · rintro (hwhole | ⟨k, hk, hk', d, hd, hdmem⟩)
        · omega
        · obtain rfl := le_antisymm hk' hk
          rw [List.getElem?_eq_getElem hlt] at hd
          exact hdmem (Option.some.inj hd ▸ hmem)
    · obtain ⟨st', hstep, hout', hj'⟩ := decodeChar_room hbefore hout hj c
      rw [hstep]
      refine (ih (i + 1) st' (by omega) hbefore hout' hj').trans (or_congr_right ⟨?_, ?_⟩)
      · rintro ⟨k, hk, hrest⟩
        exact ⟨k, by omega, hrest⟩
      · rintro ⟨k, hk, hk', d, hd, hdmem⟩
        refine ⟨k, Nat.lt_of_le_of_ne hk ?_, hk', d, hd, hdmem⟩
        rintro rfl
        rw [List.getElem?_eq_getElem hlt] at hd
        exact hdmem (Option.some.inj hd ▸ hmem)

/-- **`base64_decode` returns**, and no index is out of range, exactly where the number of
characters is an `int`, and is a multiple of four or one of those up to the first behind the whole
groups is not of the alphabet. -/
theorem base64Decode_returns_iff (inp : List UInt8) :
    Returns (base64DecodeAt inp) ↔ inp.length ≤ maxInt ∧
      (inp.length % 4 = 0 ∨ ∃ c ∈ inp.take (4 * (inp.length / 4) + 1), c ∉ base64en) := by
  rw [base64DecodeAt_eq]
  by_cases hlong : maxInt < inp.length
  · rw [base64DecodeArray, length, if_pos hlong]
    refine iff_of_false ?_ fun h => absurd h.1 (not_le.mpr hlong)
    rintro ⟨n, out, herror, -⟩
    cases herror
  have hsize : resize [] (base64DecodeOutSize inp.length)
      = .ok (filled (3 * (inp.length / 4)) []).1 := by
    rw [← resize_nil, base64DecodeOutSize, Int.tdiv_eq_ediv_of_nonneg (by omega)]
    congr 1
    omega
  have hdecode : base64DecodeArray inp
      = decodeFrom inp inp.length 0 ((filled (3 * (inp.length / 4)) []).1, 0) := by
    rw [base64DecodeArray, length, if_neg hlong]
    change (resize [] (base64DecodeOutSize inp.length) >>= fun out =>
      decodeFrom inp inp.length 0 (out, 0)) = _
    rw [hsize]
    rfl
  rw [hdecode]
  refine (decodeFrom_returns_iff inp.length 0 (_, 0) (Nat.zero_add _) (Nat.zero_le _) ?_ rfl).trans
    (Iff.trans (or_congr_right ?_) (and_iff_right (not_lt.mp hlong)).symm)
  · rw [filled]
    simp
  constructor
  · rintro ⟨k, -, hk, c, hc, hmem⟩
    refine ⟨c, List.mem_of_getElem? (i := k) ?_, hmem⟩
    rw [List.getElem?_take, if_pos (by omega), hc]
  · rintro ⟨c, hc, hmem⟩
    obtain ⟨k, hk⟩ := List.mem_iff_getElem?.mp hc
    rw [List.getElem?_take] at hk
    split_ifs at hk with hlt
    exact ⟨k, Nat.zero_le _, by omega, c, hk, hmem⟩

theorem base64Decode_truncated :
    base64DecodeAt (text "A") = .error (.throw "array index out of range") ∧
      ¬ Returns (base64DecodeAt (text "A")) := by
  refine ⟨rfl, ?_⟩
  rintro ⟨n, out, herror, -⟩
  cases herror

end DaScript.Base64

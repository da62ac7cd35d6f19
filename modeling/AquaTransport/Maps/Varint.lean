import AquaTransport.Maps.Directions

/-!
# AquaTransport.Maps.Varint — which bytes `aq_read_varint` reads

`Maps.Directions` has what `aq_read_varint` returns.  Here the loop runs without a count of its rounds and
keeps the positions that it reads, also where it fails.
-/

namespace AquaTransport.Varint

open Wire

/-- `*offset`, `*value`, and the positions that were read, in their order. -/
structure Reading where
  offset : ℕ
  value : UInt64 := 0
  reads : List ℕ := []

/-- The loop of `aq_read_varint`.  What is past the end reads as 0. -/
def readLoop (A : Arch) (data : NSData) (shift : ℕ) (r : Reading) : Bool × Reading :=
  if h : shift < 64 ∧ r.offset < data.length then
    let b := data.getD r.offset 0
    let r := { r with offset := (r.offset + 1) % 2 ^ A.bits, reads := r.reads ++ [r.offset] }
    if shift = 63 ∧ 1 < b then (false, r)
    else
      let r := { r with value := r.value ||| ((b &&& 127).toUInt64 <<< UInt64.ofNat shift) }
      if b &&& 128 = 0 then (true, r) else readLoop A data (shift + 7) r
  else (false, r)
termination_by 64 - shift

/-- `aq_read_varint`. -/
def aqReadVarint (A : Arch) (data : NSData) (offset : ℕ) : Bool × Reading :=
  readLoop A data 0 { offset := offset }

/-! ### The loop -/

section Loop

variable {A : Arch} {data : NSData} {r : Reading} {shift rounds : ℕ}

/-- From `offset` on, `n` bytes have been read. -/
structure Reading.Ran (r r' : Reading) (data : NSData) (n : ℕ) : Prop where
  offset : r'.offset = r.offset + n
  reads : r'.reads = r.reads ++ List.range' r.offset n
  within : n = 0 ∨ r.offset + n ≤ data.length

/-- **The step and the run**: the loop reads at most as many bytes as there are rounds left, none past the
end, and returns what the counted one does. -/
theorem readLoop_spec (hd : data.length < 2 ^ A.bits) (hs : shift + 7 * rounds = 70) :
    (∃ n ≤ rounds, r.Ran (readLoop A data shift r).2 data n) ∧
      readVarintLoop A data rounds shift r.offset r.value =
        if (readLoop A data shift r).1 then
          .ok ((readLoop A data shift r).2.value, (readLoop A data shift r).2.offset)
        else .error .refused := by
  induction rounds generalizing shift r with
  | zero =>
    rw [readLoop, dif_neg (by omega)]
    exact ⟨⟨0, le_rfl, rfl, (List.append_nil _).symm, Or.inl rfl⟩, rfl⟩
  | succ rounds ih =>
    rw [readLoop]
    unfold readVarintLoop
    by_cases h : shift < 64 ∧ r.offset < data.length
    · have hbyte : byteAt data r.offset = .ok (data.getD r.offset 0) := by
        unfold byteAt
        rw [List.getD_eq_getElem?_getD, List.getElem?_eq_getElem h.2]
        rfl
      have hnext : (r.offset + 1) % 2 ^ A.bits = r.offset + 1 := Nat.mod_eq_of_lt (by omega)
      rw [dif_pos h, if_pos h, hbyte, Arch.add_eq (by omega)]
      generalize data.getD r.offset 0 = b
      dsimp only
      rw [hnext]
      have hone (v : UInt64) : r.Ran { offset := r.offset + 1, value := v, reads := r.reads ++ [r.offset] }
          data 1 := ⟨rfl, rfl, Or.inr h.2⟩
      show _ ∧ (if shift = 63 ∧ 1 < b then _ else _) = _
      by_cases hbig : shift = 63 ∧ 1 < b
      · rw [if_pos hbig, if_pos hbig]
        exact ⟨⟨1, by omega, hone _⟩, rfl⟩
      rw [if_neg hbig, if_neg hbig]
      by_cases hlow : b &&& 128 = 0
      · rw [if_pos hlow, if_pos hlow]
        exact ⟨⟨1, by omega, hone _⟩, rfl⟩
      · rw [if_neg hlow, if_neg hlow]
        have hs' : shift + 7 + 7 * rounds = 70 := by omega
        obtain ⟨⟨n, hn, hran⟩, heq⟩ := ih
          (r := { offset := r.offset + 1, value := _, reads := r.reads ++ [r.offset] }) hs'
        refine ⟨⟨n + 1, by omega, ?_, ?_, ?_⟩, heq⟩
        · have hoffset : _ = r.offset + 1 + n := hran.offset
          omega
        · rw [hran.reads, List.append_assoc, List.range'_succ]
          rfl
        · have hwithin : n = 0 ∨ r.offset + 1 + n ≤ data.length := hran.within
          omega
    · rw [dif_neg h, if_neg h]
      exact ⟨⟨0, Nat.zero_le _, rfl, (List.append_nil _).symm, Or.inl rfl⟩, rfl⟩

/-- `aq_read_varint` returns what `Maps.Directions` says. -/
theorem aqReadVarint_eq (hd : data.length < 2 ^ A.bits) (offset : ℕ) :
    AquaTransport.aqReadVarint A data offset =
      if (aqReadVarint A data offset).1 then
        .ok ((aqReadVarint A data offset).2.value, (aqReadVarint A data offset).2.offset)
      else .error .refused :=
  (readLoop_spec (r := { offset := offset }) hd (by rfl)).2

/-- At most ten bytes, one after the other, none past the end. -/
theorem reads_aqReadVarint (hd : data.length < 2 ^ A.bits) (offset : ℕ) :
    ∃ n ≤ 10, (aqReadVarint A data offset).2.reads = List.range' offset n ∧
      (aqReadVarint A data offset).2.offset = offset + n ∧ (n = 0 ∨ offset + n ≤ data.length) := by
  have hs : 0 + 7 * 10 = 70 := rfl
  obtain ⟨⟨n, hn, hran⟩, -⟩ := readLoop_spec (r := { offset := offset }) hd hs
  exact ⟨n, hn, hran.reads, hran.offset, hran.within⟩

/-- It succeeds on the varints of 64 bits. -/
theorem aqReadVarint_iff (hd : data.length < 2 ^ A.bits) {offset : ℕ} {v : UInt64} {o : ℕ} :
    ((aqReadVarint A data offset).1 = true ∧ (aqReadVarint A data offset).2.value = v ∧
      (aqReadVarint A data offset).2.offset = o) ↔
    ∃ bs rest, data.drop offset = bs ++ rest ∧ IsVarint 10 bs ∧ v.toNat = value bs ∧
      o = offset + bs.length := by
  have heq := aqReadVarint_eq hd offset
  rw [AquaTransport.aqReadVarint_eq hd] at heq
  generalize aqReadVarint A data offset = p at heq
  obtain ⟨ok, r⟩ := p
  constructor
  · rintro ⟨rfl, rfl, rfl⟩
    cases hsplit : splitVarint 10 (data.drop offset) with
    | none =>
      rw [hsplit] at heq
      cases heq
    | some q =>
      obtain ⟨bs, rest⟩ := q
      rw [hsplit] at heq
      obtain ⟨hdrop, hv⟩ := splitVarint_some hsplit
      obtain ⟨hvalue, hoffset⟩ := Prod.mk.inj (Except.ok.inj heq)
      refine ⟨bs, rest, hdrop, hv, ?_, hoffset.symm⟩
      have hlt := hv.value_lt
      show r.value.toNat = _
      rw [← hvalue, UInt64.toNat_ofNat']
      exact Nat.mod_eq_of_lt (by omega)
  · rintro ⟨bs, rest, hdrop, hv, hvalue, rfl⟩
    rw [hdrop, splitVarint_append hv] at heq
    replace heq : Except.ok (UInt64.ofNat (value bs), offset + bs.length) = _ := heq
    rw [← hvalue, UInt64.ofNat_toNat] at heq
    cases ok with
    | false => cases heq
    | true =>
      obtain ⟨hvalue, hoffset⟩ := Prod.mk.inj (Except.ok.inj heq)
      exact ⟨rfl, hvalue.symm, hoffset.symm⟩

end Loop

/-! ### Round trip and rejection -/

/-- All bytes but the last go on. -/
def Ends (bs : NSData) : Prop :=
  ∃ init last, bs = init ++ [last] ∧ (∀ b ∈ init, 128 ≤ b.toNat) ∧ last.toNat < 128

section Rejection

variable {A : Arch} {data : NSData} {offset : ℕ}

/-- Where it succeeds there is a varint. -/
theorem exists_varint (hd : data.length < 2 ^ A.bits)
    (h : (aqReadVarint A data offset).1 = true) : ∃ bs rest, data.drop offset = bs ++ rest ∧
      IsVarint 10 bs ∧ (aqReadVarint A data offset).2.value.toNat = value bs ∧
      (aqReadVarint A data offset).2.offset = offset + bs.length :=
  (aqReadVarint_iff hd).mp ⟨h, rfl, rfl⟩

/-- The varint is a beginning of any bytes at the offset that are as many. -/
theorem varint_prefix {bs rest vs rest' : NSData} (hdrop : data.drop offset = bs ++ rest)
    (hdrop' : data.drop offset = vs ++ rest') (hlen : vs.length ≤ bs.length) : vs <+: bs := by
  have hvs : vs <+: bs ++ rest := ⟨rest', hdrop'.symm.trans hdrop⟩
  exact List.prefix_of_prefix_length_le hvs (List.prefix_append bs rest) hlen

/-- Bytes that all go on are refused when they are ten, or all that is left. -/
theorem refused_of_unended (hd : data.length < 2 ^ A.bits) {bs rest : NSData}
    (hdrop : data.drop offset = bs ++ rest) (hall : ∀ b ∈ bs, 128 ≤ b.toNat)
    (hend : rest = [] ∨ bs.length = 10) : (aqReadVarint A data offset).1 = false := by
  by_contra hok
  obtain ⟨vs, rest', hdrop', hv, -, -⟩ := exists_varint hd (by simpa using hok)
  have hle := hv.length_le
  have hpre : vs <+: bs := by
    refine varint_prefix hdrop hdrop' ?_
    rcases hend with rfl | hten
    · have hlen := congrArg List.length (hdrop.symm.trans hdrop')
      rw [List.length_append, List.length_append, List.length_nil] at hlen
      omega
    · omega
  obtain ⟨init, last, rfl, -, hlast, -⟩ := hv.ends
  have := hall last (hpre.subset (by simp))
  omega

/-- So is a tenth byte above 1. -/
theorem refused_of_tenth (hd : data.length < 2 ^ A.bits) {bs rest : NSData} {b : UInt8}
    (hdrop : data.drop offset = bs ++ b :: rest) (hlen : bs.length = 9)
    (hall : ∀ c ∈ bs, 128 ≤ c.toNat) (hb : 1 < b.toNat) : (aqReadVarint A data offset).1 = false := by
  by_contra hok
  obtain ⟨vs, rest', hdrop', hv, -, -⟩ := exists_varint hd (by simpa using hok)
  have hle := hv.length_le
  obtain ⟨init, last, hvs, -, hlast, hten⟩ := hv.ends
  rcases Nat.lt_or_eq_of_le hle with hlt | heq
  · have hpre := varint_prefix hdrop hdrop' (by omega)
    have := hall last (hpre.subset (by simp [hvs]))
    omega
  · rw [← List.singleton_append, ← List.append_assoc] at hdrop
    have hpre := varint_prefix hdrop hdrop' (by simp [heq, hlen])
    have hsame := hpre.eq_of_length (by simp [heq, hlen])
    obtain ⟨-, hlast'⟩ := List.append_inj' (hvs.symm.trans hsame) rfl
    have htwo := hten heq
    rw [List.singleton_inj.mp hlast'] at htwo
    omega

end Rejection

/-- **Varint round trip and rejection.** -/
theorem varint_exact (A : Arch) :
    (∀ (v : UInt64) (before rest : NSData),
      (before ++ (aqVarint v ++ rest)).length < 2 ^ A.bits →
        (aqReadVarint A (before ++ (aqVarint v ++ rest)) before.length).1 = true ∧
        (aqReadVarint A (before ++ (aqVarint v ++ rest)) before.length).2.value = v ∧
        (aqReadVarint A (before ++ (aqVarint v ++ rest)) before.length).2.offset =
          before.length + (aqVarint v).length) ∧
    ∀ (data : NSData) (offset : ℕ), data.length < 2 ^ A.bits →
      ((aqReadVarint A data offset).2.reads.length ≤ 10 ∧
        (∀ i ∈ (aqReadVarint A data offset).2.reads, offset ≤ i ∧ i < data.length) ∧
        (aqReadVarint A data offset).2.offset =
          offset + (aqReadVarint A data offset).2.reads.length) ∧
      ((aqReadVarint A data offset).1 = true → ∃ bs rest, data.drop offset = bs ++ rest ∧ Ends bs ∧
        value bs < 2 ^ 64 ∧ (aqReadVarint A data offset).2.value.toNat = value bs ∧
        (aqReadVarint A data offset).2.offset = offset + bs.length) ∧
      ((∀ b ∈ data.drop offset, 128 ≤ b.toNat) → (aqReadVarint A data offset).1 = false) ∧
      (∀ bs rest, data.drop offset = bs ++ rest → bs.length = 10 → (∀ b ∈ bs, 128 ≤ b.toNat) →
        (aqReadVarint A data offset).1 = false) ∧
      ∀ bs b rest, data.drop offset = bs ++ b :: rest → bs.length = 9 → (∀ c ∈ bs, 128 ≤ c.toNat) →
        1 < b.toNat → (aqReadVarint A data offset).1 = false := by
  refine ⟨fun v before rest hd => ?_, fun data offset hd => ⟨?_, fun hok => ?_, fun hall => ?_,
    fun bs rest hdrop hlen hall => ?_, fun bs b rest hdrop hlen hall hb => ?_⟩⟩
  · refine (aqReadVarint_iff hd).mpr ⟨aqVarint v, rest, List.drop_left, ?_, ?_, rfl⟩
    · rw [aqVarint_eq]
      exact isVarint_varint (by decide) v.toNat_lt
    · rw [aqVarint_eq, value_varint]
  · obtain ⟨n, hn, hreads, hoffset, hwithin⟩ := reads_aqReadVarint hd offset
    rw [hreads, hoffset, List.length_range']
    refine ⟨hn, fun i hi => ?_, rfl⟩
    rw [List.mem_range'_1] at hi
    omega
  · obtain ⟨bs, rest, hdrop, hv, hvalue, hoffset⟩ := exists_varint hd hok
    obtain ⟨init, last, hbs, hinit, hlast, -⟩ := hv.ends
    exact ⟨bs, rest, hdrop, ⟨init, last, hbs, hinit, hlast⟩, hv.value_lt, hvalue, hoffset⟩
  · exact refused_of_unended hd (List.append_nil _).symm hall (Or.inl rfl)
  · exact refused_of_unended hd hdrop hall (Or.inr hlen)
  · exact refused_of_tenth hd hdrop hlen hall hb

/-- 300 at offset 1, and the bytes of a value that does not end. -/
theorem varint_exact_sample :
    (aqReadVarint .i386 ([8] ++ (aqVarint 300 ++ [1])) 1).2.value = 300 ∧
      (aqReadVarint .x86_64 (List.replicate 10 255) 0).1 = false := by
  have hlen : (aqVarint 300).length = 2 := by
    rw [aqVarint_eq, varint, if_neg (by decide), varint, if_pos (by decide)]
    rfl
  constructor
  · refine ((varint_exact .i386).1 300 [8] [1] ?_).2.1
    rw [List.length_append, List.length_append, hlen]
    decide
  · refine ((varint_exact .x86_64).2 (List.replicate 10 255) 0 (by decide)).2.2.2.1
      (List.replicate 10 255) [] ?_ ?_ fun b hb => ?_
    · exact (List.append_nil _).symm
    · rfl
    · rw [List.eq_of_mem_replicate hb]
      decide

end AquaTransport.Varint

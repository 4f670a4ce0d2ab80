import QuicTls.Crypto.Asn1Object

/-!
# Which texts are object identifiers

The text is split at its separators. The parser reads each part as a number, also an empty one
(`a2d_positive_iff`).
-/

namespace QuicTls.Asn1Object

open List

variable {x : SubId} {c : UInt8} {p s out : Bytes} {first fuel v : Nat}

/-- The number that the digits are. -/
def value (ds : Bytes) : Nat := ds.foldl (fun v d => v * 10 + (d.toNat - 0x30)) 0

/-- At least two decimal numbers between separators: the first is 0, 1 or 2, and the second is below
40 when the first is below 2. -/
def WellFormed (s : Bytes) : Prop :=
  ∃ c second rest, s.splitOnP separator = [c] :: second :: rest ∧ (0x30 ≤ c ∧ c ≤ 0x32) ∧
    (∀ ds ∈ second :: rest, ds ≠ [] ∧ ∀ d ∈ ds, isdigit d) ∧ (c < 0x32 → value second < 40)

/-- The characters up to the next separator. -/
def word (p : Bytes) : Bytes := p.takeWhile (!separator ·)

/-- The first number and a separator, and after it only digits and separators, at least one of them;
the second number as above. -/
def Lenient (s : Bytes) : Prop :=
  (0x30 ≤ s.headD 0 ∧ s.headD 0 ≤ 0x32) ∧ separator (s.tail.headD 0) ∧ s.tail.tail ≠ [] ∧
    (∀ d ∈ s.tail.tail, separator d ∨ isdigit d) ∧
    (s.headD 0 < 0x32 → value (word s.tail.tail) < 40)

/-- The number read so far. Once it is a `BIGNUM`, it is large and so is the word that it started
with. -/
inductive Reads : SubId → Nat → Prop
  | word (v : Nat) : Reads ⟨v, none⟩ v
  | bn {l v : Nat} (hl : 40 ≤ l) (hv : 40 ≤ v) : Reads ⟨l, some v⟩ v

theorem Reads.digit (h : Reads x v) (c : UInt8) :
    Reads (x.digit c) (v * 10 + (c.toNat - 0x30)) := by
  cases h with
  | word =>
    by_cases hl : (ulongMax - 80) / 10 ≤ v
    · have hlarge : 40 ≤ v := by
        rw [ulongMax] at hl
        omega
      simp only [SubId.digit, hl]
      exact .bn hlarge (by omega)
    · simp only [SubId.digit, hl]
      exact .word _
  | bn hl hv => exact .bn hl (by omega)

theorem Reads.foldl (h : Reads x v) (ds : Bytes) :
    Reads (ds.foldl SubId.digit x) (ds.foldl (fun v d => v * 10 + (d.toNat - 0x30)) v) := by
  induction ds generalizing x v with
  | nil => exact h
  | cons d ds ih => exact ih (h.digit d)

theorem Reads.le_iff (h : Reads x v) : 40 ≤ x.l ↔ 40 ≤ v := by
  cases h with
  | word => rfl
  | bn hl hv => exact iff_of_true hl hv

theorem Reads.addFirst (h : Reads x v) (first : Nat) :
    Reads (x.addFirst first) (v + first * 40) := by
  cases h with
  | word => exact .word _
  | bn hl hv => exact .bn hl (by omega)

theorem Reads.groups_ne_nil (h : Reads x v) : x.groups ≠ [] := by
  cases h with
  | word => nofun
  | bn hl hv =>
    have hsize : 0 < v.size := Nat.size_pos.2 (by omega)
    show SubId.bnGroups ((v.size + 6) / 7) v ≠ []
    rw [show (v.size + 6) / 7 = (v.size - 1) / 7 + 1 by omega]
    nofun

/-- What is left after the next separator. -/
def after (p : Bytes) : Bytes := (p.dropWhile (!separator ·)).tail

theorem readDigits_eq (x : SubId) (c : UInt8) (p : Bytes) :
    ∃ c', readDigits x c p = (if (word p).all isdigit then
        some ((word p).foldl SubId.digit x, c', after p) else none) ∧
      (after p ≠ [] → separator c') := by
  induction p generalizing x c with
  | nil => exact ⟨c, rfl, fun h => absurd rfl h⟩
  | cons d p ih =>
    obtain ⟨c', heq, hc'⟩ := ih (x.digit d) d
    by_cases hsep : separator d
    · exact ⟨d, by simp [readDigits, word, after, hsep], fun _ => hsep⟩
    · refine ⟨c', ?_, ?_⟩
      · by_cases hd : isdigit d <;> simp_all [readDigits, word, after]
      · simpa [after, hsep] using hc'

theorem all_iff (p : Bytes) : (∀ d ∈ p, separator d ∨ isdigit d) ↔
    (word p).all isdigit ∧ ∀ d ∈ after p, separator d ∨ isdigit d := by
  induction p with
  | nil => simp [word, after]
  | cons d p ih => by_cases hsep : separator d <;> simp_all [word, after, and_assoc]

theorem length_after_lt (h : p ≠ []) : (after p).length < p.length := by
  have hle := (dropWhile_suffix (l := p) (!separator ·)).length_le
  have hpos := length_pos_iff.2 h
  rw [after, length_tail]
  omega

/-- The loop succeeds at the end of the text, or when only digits and separators follow. -/
theorem a2dLoop_ne_nil_iff (hfuel : p.length ≤ fuel) :
    (a2dLoop none first fuel c p out).getD [] ≠ [] ↔ p = [] ∧ out ≠ [] ∨
      separator c ∧ p ≠ [] ∧ (∀ d ∈ p, separator d ∨ isdigit d) ∧
        (out = [] → first < 2 → value (word p) < 40) := by
  induction fuel generalizing c p out with
  | zero => simp [length_eq_zero_iff.1 (Nat.le_zero.1 hfuel), a2dLoop]
  | succ fuel ih =>
    rw [a2dLoop]
    by_cases hp : p = []
    · simp [hp]
    by_cases hc : separator c
    case neg => simp [hp, hc]
    obtain ⟨c', heq, hc'⟩ := readDigits_eq ⟨0, none⟩ c p
    have hreads := (Reads.word 0).foldl (word p)
    rw [heq, all_iff]
    generalize (word p).foldl SubId.digit ⟨0, none⟩ = y at hreads
    have hlt : 40 ≤ y.l ↔ ¬value (word p) < 40 := by
      rw [hreads.le_iff, not_lt]
      rfl
    by_cases hall : (word p).all isdigit
    case neg => simp [hp, hall]
    by_cases hbig : out = [] ∧ first < 2 ∧ 40 ≤ y.l
    · simp_all
    have hgroups : (if out = [] then y.addFirst first else y).groups ≠ [] := by
      split
      · exact (hreads.addFirst first).groups_ne_nil
      · exact hreads.groups_ne_nil
    have hfuel' : (after p).length ≤ fuel := by
      have := length_after_lt hp
      omega
    simp only [hall, hbig, if_true]
    by_cases hafter : after p = [] <;> simp_all

theorem splitOnP_eq (p : Bytes) : ∃ rest, p.splitOnP separator = word p :: rest ∧
    (word p :: rest = [[]] ↔ p = []) ∧
    ((∀ ds ∈ word p :: rest, ∀ d ∈ ds, isdigit d) ↔ ∀ d ∈ p, separator d ∨ isdigit d) := by
  induction p with
  | nil => exact ⟨[], by simp [word]⟩
  | cons d p ih =>
    obtain ⟨rest, heq, hnil, hall⟩ := ih
    rw [splitOnP_cons_eq_if_modifyHead]
    by_cases hsep : separator d
    · exact ⟨word p :: rest, by simp_all [word]⟩
    · exact ⟨rest, by simp_all [word, and_assoc]⟩

/-- The lenient texts without an empty sub-identifier are the well-formed ones. -/
theorem wellFormed_iff : WellFormed s ↔ Lenient s ∧ [] ∉ s.splitOnP separator := by
  have hdigit : ∀ c : UInt8, 0x30 ≤ c → ¬separator c := by
    intro c hc
    rw [separator, decide_eq_true_iff]
    rintro (rfl | rfl) <;> exact absurd hc (by decide)
  rw [WellFormed, Lenient]
  match s with
  | [] => simp
  | [c] => by_cases hsep : separator c <;> simp [splitOnP_cons_eq_if_modifyHead, hsep]
  | c :: d :: p =>
    obtain ⟨rest, heq, hnil, hall⟩ := splitOnP_eq p
    rw [splitOnP_cons_eq_if_modifyHead, splitOnP_cons_eq_if_modifyHead, heq]
    by_cases hsep : separator c
    · have hc : ¬0x30 ≤ c := fun hc => hdigit c hc hsep
      simp [hsep]
    by_cases hsep' : separator d
    case neg => simp [hsep, hsep']
    rw [if_neg hsep, if_pos hsep']
    constructor
    · rintro ⟨c', second, rest', ⟨⟩, hc, hds, hlt⟩
      refine ⟨⟨hc, hsep', hnil.not.1 ?_, hall.1 fun ds h => (hds ds h).2, hlt⟩, ?_⟩
      · intro h
        exact (hds [] (h ▸ mem_cons_self)).1 rfl
      · rw [modifyHead_cons, mem_cons, not_or]
        exact ⟨nofun, fun h => (hds [] h).1 rfl⟩
    · rintro ⟨⟨hc, -, -, hds, hlt⟩, hne⟩
      refine ⟨c, word p, rest, rfl, hc, fun ds h => ⟨?_, hall.2 hds ds h⟩, hlt⟩
      rintro rfl
      exact hne (mem_cons_of_mem _ h)

/-- The text is read up to its length as an `int`. -/
theorem a2dAsn1Object_ne_nil_iff (s : Bytes) : a2dAsn1Object none s (-1) ≠ [] ↔
    Lenient (s.take (toInt32 s.length).toNat) := by
  rw [a2dAsn1Object, if_neg (by decide), if_pos rfl, Lenient]
  generalize toInt32 s.length = num
  dsimp only
  have htail : (s.take num.toNat).tail = s.tail.take (num - 1).toNat := by
    rw [← drop_one, ← drop_one, drop_take, show num.toNat - 1 = (num - 1).toNat by omega]
  rw [htail]
  by_cases hnum : num - 1 ≤ 0
  · rw [if_pos hnum, Int.toNat_of_nonpos hnum]
    simp
  have hhead : (s.take num.toNat).headD 0 = s.headD 0 := by
    rw [headD_eq_head?_getD, head?_take, if_neg (by omega), headD_eq_head?_getD]
  rw [if_neg hnum, hhead]
  generalize s.headD 0 = c
  by_cases hc : c < 0x30 ∨ 0x32 < c
  · rw [← UInt8.not_le, ← UInt8.not_le, ← not_and_or] at hc
    simp [hc]
  rw [if_neg hc, a2dLoop_ne_nil_iff (Nat.le_refl _)]
  rw [not_or, UInt8.not_lt, UInt8.not_lt] at hc
  have hfirst : c.toNat - 0x30 < 2 ↔ c < 0x32 := by
    rw [UInt8.lt_iff_toNat_lt, show (0x32 : UInt8).toNat = 50 from rfl]
    omega
  simp [hc, hfirst]

/-- A text is accepted when its parts are digits or empty: the parser reads no digits as zero, and
does not look for any after the last separator. So an answer for a text whose length is an `int` is
right exactly when none of the parts is empty; of a longer text the parser sees only a beginning. -/
theorem a2d_positive_iff (s : Bytes) :
    (0 < (a2dAsn1Object none s (-1)).length ↔ Lenient (s.take (toInt32 s.length).toNat)) ∧
      (s.length < 2 ^ 31 → ((0 < (a2dAsn1Object none s (-1)).length ↔ WellFormed s) ↔
        (Lenient s → [] ∉ s.splitOnP separator))) := by
  rw [length_pos_iff, a2dAsn1Object_ne_nil_iff]
  refine ⟨Iff.rfl, fun h => ?_⟩
  rw [toInt32_of_bounds (by omega) (by omega), Int.toNat_natCast, take_length, wellFormed_iff]
  exact ⟨fun h hl => (h.1 hl).2, fun h => ⟨fun hl => ⟨hl, h hl⟩, And.left⟩⟩

/-- `1.2.` is accepted. -/
theorem a2d_trailing_separator :
    0 < (a2dAsn1Object none [0x31, 0x2e, 0x32, 0x2e] (-1)).length ∧
      ¬WellFormed [0x31, 0x2e, 0x32, 0x2e] := by
  rw [wellFormed_iff]
  exact ⟨by decide, fun h => h.2 (by decide)⟩

end QuicTls.Asn1Object

import Mathlib.Algebra.Group.Int.Defs
import Mathlib.Algebra.Group.Nat.Defs
import Mathlib.Data.List.Basic

/-! # Formatted text

Decimal output in the manner of `printf`, and the part of `scanf` and `fgets`
that reads it back. Text is a list of characters; conversions follow `strtoul`
and `strtol` on 64-bit words, then narrow to the width of their argument.
-/

namespace Text

/-- The white space of the C locale. -/
def isSpace (c : Char) : Bool :=
  c = ' ' || c = '\t' || c = '\n' || c = '\x0b' || c = '\x0c' || c = '\r'

/-- Output of `%lu` and `%u`. -/
def decimal (n : Nat) : List Char := Nat.toDigits 10 n

/-- Output of `%d`. -/
def signedDecimal (i : Int) : List Char :=
  if i < 0 then '-' :: decimal i.natAbs else decimal i.natAbs

/-- Sign, magnitude and rest of a number at the start of the text, after white space. -/
def scanNumber (s : List Char) : Option (Bool × Nat × List Char) :=
  let s := s.dropWhile isSpace
  let (neg, s) := match s with
    | '-' :: r => (true, r)
    | '+' :: r => (false, r)
    | _ => (false, s)
  let digits := s.takeWhile Char.isDigit
  if digits = [] then none
  else some (neg, Nat.ofDigitChars 10 digits 0, s.dropWhile Char.isDigit)

/-- Out of range gives the greatest value; a minus sign negates modulo `2 ^ 64`. -/
def strtoul (neg : Bool) (m : Nat) : Nat :=
  if 2 ^ 64 ≤ m then 2 ^ 64 - 1 else if neg then (2 ^ 64 - m) % 2 ^ 64 else m

def strtol (neg : Bool) (m : Nat) : Int :=
  if neg then max (-2 ^ 63) (-m) else min (2 ^ 63 - 1) m

/-- One directive of a `scanf` format. -/
inductive Directive where
  | char (c : Char)
  | space
  | unsigned (width : Nat)
  | signed (width : Nat)

/-- The values that `sscanf` assigns before its first mismatch, as words of the given width. -/
def sscanf : List Directive → List Char → List Nat
  | [], _ => []
  | .char c :: ds, s =>
    match s with
    | c' :: s' => if c = c' then sscanf ds s' else []
    | [] => []
  | .space :: ds, s => sscanf ds (s.dropWhile isSpace)
  | .unsigned w :: ds, s =>
    match scanNumber s with
    | some (neg, m, rest) => strtoul neg m % 2 ^ w :: sscanf ds rest
    | none => []
  | .signed w :: ds, s =>
    match scanNumber s with
    | some (neg, m, rest) => (strtol neg m % 2 ^ w).toNat :: sscanf ds rest
    | none => []

/-- The directives for plain characters of a format. -/
def literal (l : List Char) : List Directive := l.map .char

/-- The text of a buffer up to its terminator, as `sscanf` sees it. -/
def cString (s : List Char) : List Char := s.takeWhile (· ≠ '\x00')

/-- Successive `fgets` results: lines with their newline, cut after `cap` characters. -/
def fgetsFrom (cap : Nat) : List Char → List Char → List (List Char)
  | line, [] => if line = [] then [] else [line]
  | line, c :: s =>
    if c = '\n' ∨ cap ≤ line.length + 1 then (line ++ [c]) :: fgetsFrom cap [] s
    else fgetsFrom cap (line ++ [c]) s

def fgets (cap : Nat) (s : List Char) : List (List Char) := fgetsFrom cap [] s

/-! ## Reading back what was printed -/

/-- The text does not go on with a digit. -/
def EndsNumber (s : List Char) : Prop := ∀ c ∈ s.head?, c.isDigit = false

@[simp] theorem endsNumber_nil : EndsNumber [] := by simp [EndsNumber]

@[simp] theorem endsNumber_cons (c : Char) (s : List Char) :
    EndsNumber (c :: s) ↔ c.isDigit = false := by simp [EndsNumber]

theorem isDigit_of_mem_decimal {c : Char} {n : Nat} (h : c ∈ decimal n) : c.isDigit = true :=
  Nat.isDigit_of_mem_toDigits (by decide) (by decide) h

theorem not_mem_decimal {c : Char} (h : c.isDigit = false) (n : Nat) : c ∉ decimal n :=
  fun hc => by simp [isDigit_of_mem_decimal hc] at h

theorem length_decimal_le {n k : Nat} (hk : 0 < k) (h : n < 10 ^ k) : (decimal n).length ≤ k :=
  (Nat.length_toDigits_le_iff (by decide) hk).mpr h

theorem not_mem_signedDecimal {c : Char} (h : c.isDigit = false) (hm : c ≠ '-') (i : Int) :
    c ∉ signedDecimal i := by
  unfold signedDecimal
  split
  · simp [hm, not_mem_decimal h]
  · exact not_mem_decimal h _

theorem length_signedDecimal_le {i : Int} {k : Nat} (hk : 0 < k) (h : i.natAbs < 10 ^ k) :
    (signedDecimal i).length ≤ k + 1 := by
  have hd := length_decimal_le hk h
  unfold signedDecimal
  split
  · simpa using hd
  · omega

theorem takeWhile_digits_append {d s : List Char} (hd : ∀ c ∈ d, c.isDigit = true)
    (hs : EndsNumber s) : (d ++ s).takeWhile Char.isDigit = d := by
  rw [List.takeWhile_append_of_pos hd]
  cases s with
  | nil => simp
  | cons c s => simp_all

theorem dropWhile_digits_append {d s : List Char} (hd : ∀ c ∈ d, c.isDigit = true)
    (hs : EndsNumber s) : (d ++ s).dropWhile Char.isDigit = s := by
  rw [List.dropWhile_append_of_pos hd]
  cases s with
  | nil => simp
  | cons c s => simp_all

theorem decimal_eq_cons (n : Nat) : ∃ c s, decimal n = c :: s ∧ c.isDigit = true := by
  obtain ⟨c, s, h⟩ := List.exists_cons_of_ne_nil (Nat.toDigits_ne_nil (n := n) (b := 10))
  exact ⟨c, s, h, isDigit_of_mem_decimal (n := n) (by rw [decimal, h]; simp)⟩

theorem decimal_ne_nil (n : Nat) : decimal n ≠ [] := Nat.toDigits_ne_nil

theorem ofDigitChars_decimal (n : Nat) : Nat.ofDigitChars 10 (decimal n) 0 = n :=
  Nat.ofDigitChars_ten_toDigits

theorem isDigit_of_isSpace {c : Char} (h : isSpace c = true) : c.isDigit = false := by
  simp only [isSpace, Bool.or_eq_true, decide_eq_true_eq] at h
  rcases h with ((((rfl | rfl) | rfl) | rfl) | rfl) | rfl <;> rfl

theorem not_isSpace_of_isDigit {c : Char} (h : c.isDigit = true) : isSpace c = false := by
  by_contra hs
  simp [isDigit_of_isSpace (Bool.not_eq_false _ ▸ hs)] at h

theorem dropWhile_isSpace_of_isDigit {c : Char} (h : c.isDigit = true) (s : List Char) :
    (c :: s).dropWhile isSpace = c :: s := by
  simp [not_isSpace_of_isDigit h]

theorem dropWhile_isSpace_decimal (n : Nat) (s : List Char) :
    (decimal n ++ s).dropWhile isSpace = decimal n ++ s := by
  obtain ⟨c, r, hd, hc⟩ := decimal_eq_cons n
  rw [hd, List.cons_append, dropWhile_isSpace_of_isDigit hc]

/-- Digits up to the end of a number are read as that number. -/
theorem scanNumber_digits {d s : List Char} (hd : ∀ c ∈ d, c.isDigit = true) (hne : d ≠ [])
    (hs : EndsNumber s) : scanNumber (d ++ s) = some (false, Nat.ofDigitChars 10 d 0, s) := by
  obtain ⟨c, r, hcr⟩ := List.exists_cons_of_ne_nil hne
  have hc : c.isDigit = true := hd c (by simp [hcr])
  have hsign : ∀ t : List Char, (match d ++ s with
      | '-' :: r => (true, r)
      | '+' :: r => (false, r)
      | _ => (false, t)) = (false, t) := by
    intro t
    rw [hcr, List.cons_append]
    split
    · rename_i h; obtain ⟨rfl, -⟩ := List.cons.inj h; simp at hc
    · rename_i h; obtain ⟨rfl, -⟩ := List.cons.inj h; simp at hc
    · rfl
  have hsp : (d ++ s).dropWhile isSpace = d ++ s := by
    rw [hcr, List.cons_append, dropWhile_isSpace_of_isDigit hc]
  simp only [scanNumber, hsp, hsign, takeWhile_digits_append hd hs, dropWhile_digits_append hd hs,
    if_neg hne]

theorem scanNumber_neg_digits {d s : List Char} (hd : ∀ c ∈ d, c.isDigit = true) (hne : d ≠ [])
    (hs : EndsNumber s) :
    scanNumber ('-' :: d ++ s) = some (true, Nat.ofDigitChars 10 d 0, s) := by
  have hsp : ('-' :: d ++ s).dropWhile isSpace = '-' :: (d ++ s) := by
    simp [isSpace]
  simp only [scanNumber, hsp, takeWhile_digits_append hd hs, dropWhile_digits_append hd hs,
    if_neg hne]

theorem scanNumber_decimal {n : Nat} {s : List Char} (hs : EndsNumber s) :
    scanNumber (decimal n ++ s) = some (false, n, s) := by
  rw [scanNumber_digits (fun _ => isDigit_of_mem_decimal) (decimal_ne_nil n) hs,
    ofDigitChars_decimal]

theorem scanNumber_neg_decimal {n : Nat} {s : List Char} (hs : EndsNumber s) :
    scanNumber ('-' :: decimal n ++ s) = some (true, n, s) := by
  rw [scanNumber_neg_digits (fun _ => isDigit_of_mem_decimal) (decimal_ne_nil n) hs,
    ofDigitChars_decimal]

theorem sscanf_literal (l : List Char) (ds : List Directive) (s : List Char) :
    sscanf (literal l ++ ds) (l ++ s) = sscanf ds s := by
  induction l with
  | nil => rfl
  | cons c l ih => simpa [literal, sscanf] using ih

theorem sscanf_unsigned {w n : Nat} (hw : w ≤ 64) (hn : n < 2 ^ w) (ds : List Directive)
    {s : List Char} (hs : EndsNumber s) :
    sscanf (.unsigned w :: ds) (decimal n ++ s) = n :: sscanf ds s := by
  have h64 : n < 2 ^ 64 := Nat.lt_of_lt_of_le hn (Nat.pow_le_pow_right (by decide) hw)
  have hv : strtoul false n = n := by
    rw [strtoul, if_neg (Nat.not_le.mpr h64), if_neg Bool.false_ne_true]
  simp only [sscanf, scanNumber_decimal hs, hv, Nat.mod_eq_of_lt hn]

theorem sscanf_signed {w : Nat} {i : Int} (h₁ : -2 ^ 63 ≤ i) (h₂ : i < 2 ^ 63)
    (ds : List Directive) {s : List Char} (hs : EndsNumber s) :
    sscanf (.signed w :: ds) (signedDecimal i ++ s) = (i % 2 ^ w).toNat :: sscanf ds s := by
  unfold signedDecimal
  split
  · rename_i hi
    have hv : strtol true i.natAbs = i := by simp only [strtol, if_true]; omega
    simp only [sscanf, scanNumber_neg_decimal hs, hv]
  · rename_i hi
    have hv : strtol false i.natAbs = i := by
      simp only [strtol, Bool.false_eq_true, if_false]; omega
    simp only [sscanf, scanNumber_decimal hs, hv]

/-- A blank in a format skips one blank of the text, and stops before a number. -/
theorem sscanf_space_decimal (n : Nat) (ds : List Directive) (s : List Char) :
    sscanf (.space :: ds) (' ' :: (decimal n ++ s)) = sscanf ds (decimal n ++ s) := by
  have h : (' ' :: (decimal n ++ s)).dropWhile isSpace = (decimal n ++ s).dropWhile isSpace := rfl
  rw [sscanf, h, dropWhile_isSpace_decimal]

theorem sscanf_space_signedDecimal (i : Int) (ds : List Directive) (s : List Char) :
    sscanf (.space :: ds) (' ' :: (signedDecimal i ++ s)) = sscanf ds (signedDecimal i ++ s) := by
  unfold signedDecimal
  split
  · rfl
  · exact sscanf_space_decimal _ _ _

/-- A format for words separated by blanks reads the next word of the text. -/
theorem sscanf_space_unsigned {w n : Nat} (hw : w ≤ 64) (hn : n < 2 ^ w) (ds : List Directive)
    {s : List Char} (hs : EndsNumber s) :
    sscanf (.space :: .unsigned w :: ds) (' ' :: (decimal n ++ s)) = n :: sscanf ds s :=
  (sscanf_space_decimal n _ s).trans (sscanf_unsigned hw hn ds hs)

theorem sscanf_space_signed {w : Nat} {i : Int} (h₁ : -2 ^ 63 ≤ i) (h₂ : i < 2 ^ 63)
    (ds : List Directive) {s : List Char} (hs : EndsNumber s) :
    sscanf (.space :: .signed w :: ds) (' ' :: (signedDecimal i ++ s)) =
      (i % 2 ^ w).toNat :: sscanf ds s :=
  (sscanf_space_signedDecimal i _ s).trans (sscanf_signed h₁ h₂ ds hs)

/-! ## Lines of numbers

A line is a keyword and numbers with a blank before each. Where it breaks off, the numbers before
the break are read, and of the number at the break what is there of it.
-/

/-- A number of a line, with the width that it is read in. -/
inductive Field where
  | unsigned (width n : Nat)
  | signed (width : Nat) (i : Int)

namespace Field

def text : Field → List Char
  | unsigned _ n => decimal n
  | signed _ i => signedDecimal i

def directive : Field → Directive
  | unsigned width _ => .unsigned width
  | signed width _ => .signed width

/-- The word that is read. -/
def value : Field → Nat
  | unsigned _ n => n
  | signed width i => (i % 2 ^ width).toNat

/-- The number fits its width. -/
def Fits : Field → Prop
  | unsigned width n => width ≤ 64 ∧ n < 2 ^ width
  | signed _ i => -2 ^ 63 ≤ i ∧ i < 2 ^ 63

end Field

def fieldsText (fs : List Field) : List Char := fs.flatMap fun f => ' ' :: f.text

def fieldsFormat (fs : List Field) : List Directive := fs.flatMap fun f => [.space, f.directive]

theorem sscanf_field {f : Field} (hf : f.Fits) (ds : List Directive) {s : List Char}
    (hs : EndsNumber s) :
    sscanf (.space :: f.directive :: ds) (' ' :: (f.text ++ s)) = f.value :: sscanf ds s := by
  cases f with
  | unsigned width n => exact sscanf_space_unsigned hf.1 hf.2 ds hs
  | signed width i => exact sscanf_space_signed hf.1 hf.2 ds hs

theorem endsNumber_fieldsText (fs : List Field) {s : List Char} (hs : EndsNumber s) :
    EndsNumber (fieldsText fs ++ s) := by
  cases fs with
  | nil => exact hs
  | cons f fs => simp [fieldsText]

/-- The numbers of a whole line. -/
theorem sscanf_fields {fs : List Field} (hfs : ∀ f ∈ fs, f.Fits) (ds : List Directive)
    {s : List Char} (hs : EndsNumber s) :
    sscanf (fieldsFormat fs ++ ds) (fieldsText fs ++ s) = fs.map Field.value ++ sscanf ds s := by
  induction fs with
  | nil => rfl
  | cons f fs ih =>
    have hf := sscanf_field (hfs f List.mem_cons_self) (fieldsFormat fs ++ ds)
      (endsNumber_fieldsText fs hs)
    rw [ih fun g hg => hfs g (List.mem_cons_of_mem _ hg)] at hf
    simpa [fieldsFormat, fieldsText] using hf

theorem EndsNumber.of_isPrefix {s t : List Char} (h : EndsNumber t) (hp : s <+: t) :
    EndsNumber s := by
  obtain ⟨u, rfl⟩ := hp
  cases s with
  | nil => simp
  | cons c s => simpa using h

theorem isPrefix_append_cases {s a b : List Char} (h : s <+: a ++ b) :
    s <+: a ∨ ∃ t, s = a ++ t ∧ t <+: b := by
  rcases List.prefix_or_prefix_of_prefix h (List.prefix_append a b) with hs | ⟨t, rfl⟩
  · exact Or.inl hs
  · exact Or.inr ⟨t, rfl, (List.prefix_append_right_inj a).mp h⟩

theorem scanNumber_nil : scanNumber [] = none := rfl

theorem scanNumber_digits_cut {d s t : List Char} (hd : ∀ c ∈ d, c.isDigit = true)
    (hs : s <+: d ++ t) (ht : EndsNumber t) (hne : d ≠ []) :
    s = [] ∨ ∃ m, ∃ rest, scanNumber s = some (false, m, rest) ∧
      scanNumber ('-' :: s) = some (true, m, rest) ∧ rest <+: t := by
  rcases isPrefix_append_cases hs with hp | ⟨u, rfl, hu⟩
  · rcases eq_or_ne s [] with rfl | hs
    · exact Or.inl rfl
    · have hds : ∀ c ∈ s, c.isDigit = true := fun c hc => hd c (hp.subset hc)
      have h := scanNumber_digits hds hs endsNumber_nil
      have hn := scanNumber_neg_digits hds hs endsNumber_nil
      rw [List.append_nil] at h hn
      exact Or.inr ⟨_, [], h, hn, List.nil_prefix⟩
  · have hu' := ht.of_isPrefix hu
    exact Or.inr ⟨_, u, scanNumber_digits hd hne hu', scanNumber_neg_digits hd hne hu', hu⟩

/-- A text that breaks off within a number or behind it gives at most that number. -/
theorem scanNumber_cut {f : Field} {s t : List Char} (hs : s <+: f.text ++ t)
    (ht : EndsNumber t) :
    scanNumber s = none ∨ ∃ neg m, ∃ rest, scanNumber s = some (neg, m, rest) ∧ rest <+: t := by
  have hpos : ∀ {n s}, s <+: decimal n ++ t →
      scanNumber s = none ∨ ∃ neg m, ∃ rest, scanNumber s = some (neg, m, rest) ∧ rest <+: t := by
    intro n s hs
    rcases scanNumber_digits_cut (fun _ => isDigit_of_mem_decimal) hs ht (decimal_ne_nil n) with
      rfl | ⟨m, rest, h, -, hrest⟩
    · exact Or.inl scanNumber_nil
    · exact Or.inr ⟨false, m, rest, h, hrest⟩
  cases f with
  | unsigned width n => exact hpos hs
  | signed width i =>
    simp only [Field.text, signedDecimal] at hs
    split at hs
    · cases s with
      | nil => exact Or.inl scanNumber_nil
      | cons c s =>
        obtain ⟨rfl, hs'⟩ := List.cons_prefix_cons.mp hs
        rcases scanNumber_digits_cut (fun _ => isDigit_of_mem_decimal) hs' ht
          (decimal_ne_nil i.natAbs) with rfl | ⟨m, rest, -, h, hrest⟩
        · exact Or.inl rfl
        · exact Or.inr ⟨true, m, rest, h, hrest⟩
    · exact hpos hs

theorem exists_text_eq_cons (f : Field) : ∃ c s, f.text = c :: s ∧ isSpace c = false := by
  have hdec : ∀ n, ∃ c s, decimal n = c :: s ∧ isSpace c = false := by
    intro n
    obtain ⟨c, s, h, hc⟩ := decimal_eq_cons n
    exact ⟨c, s, h, not_isSpace_of_isDigit hc⟩
  cases f with
  | unsigned width n => exact hdec n
  | signed width i =>
    simp only [Field.text, signedDecimal]
    split
    · exact ⟨'-', _, rfl, rfl⟩
    · exact hdec _

/-- Nothing is skipped before a number. -/
theorem dropWhile_isSpace_cut {f : Field} {s t : List Char} (hs : s <+: f.text ++ t) :
    s.dropWhile isSpace = s := by
  cases s with
  | nil => rfl
  | cons c s =>
    obtain ⟨c', r, hf, hc⟩ := exists_text_eq_cons f
    rw [hf] at hs
    obtain ⟨rfl, -⟩ := List.cons_prefix_cons.mp hs
    simp [hc]

theorem sscanf_directive_none {f : Field} {s : List Char} (h : scanNumber s = none)
    (ds : List Directive) : sscanf (f.directive :: ds) s = [] := by
  cases f <;> simp only [Field.directive, sscanf, h]

theorem length_sscanf_directive_some {f : Field} {s rest : List Char} {neg : Bool} {m : Nat}
    (h : scanNumber s = some (neg, m, rest)) (ds : List Directive) :
    (sscanf (f.directive :: ds) s).length = (sscanf ds rest).length + 1 := by
  cases f <;> simp only [Field.directive, sscanf, h, List.length_cons]

/-- A line that breaks off before the first digit of its last number does not give that number. -/
theorem length_sscanf_cut {fs : List Field} {s : List Char} (f : Field)
    (hs : s <+: fieldsText fs ++ [' ']) :
    (sscanf (fieldsFormat (fs ++ [f])) s).length ≤ fs.length := by
  have hblank : EndsNumber [' '] := by simp
  induction fs generalizing s with
  | nil =>
    have hnone : s.dropWhile isSpace = [] := by
      rcases List.prefix_concat_iff.mp hs with rfl | hs
      · rfl
      · rw [List.prefix_nil.mp hs]; rfl
    have hsc := sscanf_directive_none (f := f) scanNumber_nil []
    simp [fieldsFormat, sscanf, hnone, hsc]
  | cons g fs ih =>
    have hfmt : fieldsFormat (g :: fs ++ [f]) =
        .space :: g.directive :: fieldsFormat (fs ++ [f]) := rfl
    rw [hfmt, sscanf]
    have hcut : scanNumber (s.dropWhile isSpace) = none ∨ ∃ neg m, ∃ rest,
        scanNumber (s.dropWhile isSpace) = some (neg, m, rest) ∧
          rest <+: fieldsText fs ++ [' '] := by
      cases s with
      | nil => exact Or.inl scanNumber_nil
      | cons c s =>
        have hs' : c :: s <+: ' ' :: (g.text ++ (fieldsText fs ++ [' '])) := by
          simpa [fieldsText] using hs
        obtain ⟨rfl, hu⟩ := List.cons_prefix_cons.mp hs'
        have hd : (' ' :: s).dropWhile isSpace = s.dropWhile isSpace := rfl
        rw [hd, dropWhile_isSpace_cut hu]
        exact scanNumber_cut hu (endsNumber_fieldsText fs hblank)
    rcases hcut with h | ⟨neg, m, rest, h, hrest⟩
    · simp [sscanf_directive_none h]
    · rw [length_sscanf_directive_some h, List.length_cons]
      exact Nat.succ_le_succ (ih hrest)

theorem sscanf_fieldsFormat_nil (fs : List Field) : sscanf (fieldsFormat fs) [] = [] := by
  cases fs with
  | nil => rfl
  | cons f fs => exact sscanf_directive_none (f := f) scanNumber_nil (fieldsFormat fs)

/-- A keyword that breaks off. -/
theorem sscanf_literal_cut {w s : List Char} (hs : s <+: w) (fs : List Field) :
    sscanf (literal w ++ fieldsFormat fs) s = [] := by
  induction w generalizing s with
  | nil =>
    rw [List.prefix_nil.mp hs]
    exact sscanf_fieldsFormat_nil fs
  | cons c w ih =>
    cases s with
    | nil => rfl
    | cons c' s =>
      obtain ⟨rfl, hs'⟩ := List.cons_prefix_cons.mp hs
      simpa [literal, sscanf] using ih hs'

theorem ofDigitChars_lt {d : List Char} (hd : ∀ c ∈ d, c.isDigit = true) :
    Nat.ofDigitChars 10 d 0 < 10 ^ d.length := by
  induction d with
  | nil => simp
  | cons c d ih =>
    have hc : c.toNat - '0'.toNat ≤ 9 := by
      have h := hd c List.mem_cons_self
      simp only [Char.isDigit, Bool.and_eq_true, decide_eq_true_eq, UInt32.le_iff_toNat_le] at h
      have hle := h.2
      have h9 : '9'.val.toNat = 57 := rfl
      have h0 : '0'.val.toNat = 48 := rfl
      simp only [Char.toNat]
      omega
    have hlt := ih fun x hx => hd x (List.mem_cons_of_mem _ hx)
    have hle := Nat.mul_le_mul_left (10 ^ d.length) hc
    rw [Nat.ofDigitChars_cons, Nat.mul_zero, Nat.zero_add, Nat.ofDigitChars_eq_ofDigitChars_zero,
      List.length_cons, Nat.pow_succ]
    omega

/-- The first digits of a number are a smaller number, and not zero. -/
theorem ofDigitChars_cut {n : Nat} {d d' : List Char} (h : d ++ d' = decimal n) (hd : d ≠ [])
    (hd' : d' ≠ []) : 0 < Nat.ofDigitChars 10 d 0 ∧ Nat.ofDigitChars 10 d 0 < n := by
  have hdig : ∀ c ∈ d', c.isDigit = true := fun c hc =>
    isDigit_of_mem_decimal (n := n) (by rw [← h]; exact List.mem_append_right _ hc)
  have hn : n = 10 ^ d'.length * Nat.ofDigitChars 10 d 0 + Nat.ofDigitChars 10 d' 0 := by
    rw [← Nat.ofDigitChars_eq_ofDigitChars_zero, ← Nat.ofDigitChars_append, h,
      ofDigitChars_decimal]
  have hlen := congrArg List.length h
  rw [List.length_append] at hlen
  have hpos : 0 < Nat.ofDigitChars 10 d 0 := by
    by_contra h0
    have hlt := ofDigitChars_lt hdig
    have hz : Nat.ofDigitChars 10 d 0 = 0 := by omega
    rw [hz, Nat.mul_zero, Nat.zero_add] at hn
    have hle := length_decimal_le (List.length_pos_iff.mpr hd') (hn ▸ hlt)
    have := List.length_pos_iff.mpr hd
    omega
  have hten : 10 ≤ 10 ^ d'.length := Nat.le_self_pow (List.length_eq_zero_iff.not.mpr hd') 10
  have hle := Nat.mul_le_mul_right (Nat.ofDigitChars 10 d 0) hten
  exact ⟨hpos, by omega⟩

/-- The last number of a line, of which some digits are there. -/
theorem sscanf_digits {w m : Nat} {d : List Char} (hw : w ≤ 64) (hd : ∀ c ∈ d, c.isDigit = true)
    (hne : d ≠ []) (hm : Nat.ofDigitChars 10 d 0 = m) (hlt : m < 2 ^ w) {s : List Char}
    (hs : EndsNumber s) : sscanf [.space, .unsigned w] (' ' :: (d ++ s)) = [m] := by
  obtain ⟨c, r, hcr⟩ := List.exists_cons_of_ne_nil hne
  have hsp : (' ' :: (d ++ s)).dropWhile isSpace = d ++ s := by
    have hc : c.isDigit = true := hd c (by simp [hcr])
    have hskip : (' ' :: (d ++ s)).dropWhile isSpace = (d ++ s).dropWhile isSpace := rfl
    rw [hskip, hcr, List.cons_append, dropWhile_isSpace_of_isDigit hc]
  have h64 : m < 2 ^ 64 := Nat.lt_of_lt_of_le hlt (Nat.pow_le_pow_right (by decide) hw)
  have hv : strtoul false m = m := by
    rw [strtoul, if_neg (Nat.not_le.mpr h64), if_neg Bool.false_ne_true]
  simp only [sscanf, hsp, scanNumber_digits hd hne hs, hm, hv, Nat.mod_eq_of_lt hlt]

/-! ## Lines -/

theorem cString_of_not_mem {s : List Char} (h : '\x00' ∉ s) : cString s = s := by
  unfold cString
  induction s with
  | nil => rfl
  | cons c s ih =>
    simp only [List.mem_cons, not_or] at h
    rw [List.takeWhile_cons, if_pos (by simpa using fun hc => h.1 hc.symm), ih h.2]

/-- A short line is read back whole. -/
theorem fgetsFrom_line (line : List Char) {cap : Nat} {l : List Char} (hl : '\n' ∉ l)
    (hc : line.length + l.length < cap) (s : List Char) :
    fgetsFrom cap line (l ++ '\n' :: s) = (line ++ l ++ ['\n']) :: fgetsFrom cap [] s := by
  induction l generalizing line with
  | nil => simp [fgetsFrom]
  | cons c l ih =>
    have hcn : c ≠ '\n' := fun h => hl (by simp [h])
    have hlen : ¬ cap ≤ line.length + 1 := by simp at hc; omega
    rw [List.cons_append, fgetsFrom, if_neg (by simp [hcn, hlen]),
      ih _ (fun h => hl (List.mem_cons_of_mem _ h)) (by simp at hc ⊢; omega)]
    simp

theorem fgets_line {cap : Nat} {l : List Char} (hl : '\n' ∉ l) (hc : l.length < cap)
    (s : List Char) : fgets cap (l ++ '\n' :: s) = (l ++ ['\n']) :: fgets cap s := by
  simpa [fgets] using fgetsFrom_line [] hl (by simpa using hc) s

/-- The end of a text that does not end in a newline is a line too. -/
theorem fgetsFrom_rest (line : List Char) {cap : Nat} {l : List Char} (hl : '\n' ∉ l)
    (hc : line.length + l.length < cap) :
    fgetsFrom cap line l = if line ++ l = [] then [] else [line ++ l] := by
  induction l generalizing line with
  | nil => simp [fgetsFrom]
  | cons c l ih =>
    have hcn : c ≠ '\n' := fun h => hl (by simp [h])
    have hlen : ¬ cap ≤ line.length + 1 := by simp at hc; omega
    rw [fgetsFrom, if_neg (by simp [hcn, hlen]),
      ih _ (fun h => hl (List.mem_cons_of_mem _ h)) (by simp at hc ⊢; omega)]
    simp

theorem fgets_rest {cap : Nat} {l : List Char} (hl : '\n' ∉ l) (hc : l.length < cap) :
    fgets cap l = if l = [] then [] else [l] := by
  simpa [fgets] using fgetsFrom_rest [] hl (by simpa using hc)

@[simp] theorem fgets_nil (cap : Nat) : fgets cap [] = [] := rfl

end Text

import Corestack.Raft.Durability

/-! # A file that breaks off

After a crash in the middle of a write the file ends in a part of a record. The
reader takes the digits that are there of the last number for the whole number.
A record that breaks off elsewhere is read in full or not at all.
-/

namespace Corestack.Raft

open Text

/-- The same term, vote and log. -/
structure PersistentState.Same (p q : PersistentState) : Prop where
  currentTerm : p.currentTerm = q.currentTerm
  votedFor : p.votedFor = q.votedFor
  entries : p.entries = q.entries

theorem PersistentState.Same.refl (p : PersistentState) : p.Same p := ⟨rfl, rfl, rfl⟩

namespace LogRecord

/-- The line before the digits of its last number. -/
def head (c : LogRecord) : List Char := c.word ++ (fieldsText c.fields ++ [' '])

/-- The digits of the last number. -/
def lastDigits : LogRecord → List Char
  | state _ votedFor => decimal votedFor.toNat
  | entry e => decimal e.command.input.toNat
  | truncate from_ => decimal from_.toNat

/-- The record with these digits as its last number. -/
def shorten (d : List Char) : LogRecord → LogRecord
  | state term _ => state term (.ofNat (Nat.ofDigitChars 10 d 0))
  | entry e => entry { e with command.input := .ofNat (Nat.ofDigitChars 10 d 0) }
  | truncate _ => truncate (.ofNat (Nat.ofDigitChars 10 d 0))

theorem line_eq_head (c : LogRecord) : c.line = c.head ++ (c.lastDigits ++ ['\n']) := by
  cases c <;> simp [line_eq_fields, head, fieldsText, last, lastDigits, Field.text]

theorem shorten_lastDigits (c : LogRecord) : c.shorten c.lastDigits = c := by
  cases c <;> simp [shorten, lastDigits, ofDigitChars_decimal]

theorem isDigit_of_mem_lastDigits {c : LogRecord} {x : Char} (h : x ∈ c.lastDigits) :
    x.isDigit = true := by
  cases c <;> exact isDigit_of_mem_decimal h

theorem head_isPrefix_line (c : LogRecord) : c.head <+: c.line := by
  rw [line_eq_head]
  exact List.prefix_append _ _

/-- A record that breaks off before its last number does not have the numbers of any record. -/
theorem length_sscanf_head_cut (c' : LogRecord) {c : LogRecord} {s : List Char}
    (hs : s <+: c.head) : (sscanf c'.format s).length ≤ c'.fields.length := by
  by_cases hw : c'.word.head? = c.word.head?
  · have hfmt : c'.format = c.format ∧ c'.fields.length = c.fields.length := by
      cases c <;> cases c' <;> first
        | exact ⟨rfl, rfl⟩
        | simp [word, stateWord, entryWord, truncateWord] at hw
    rw [hfmt.1, hfmt.2, format_eq]
    rcases isPrefix_append_cases hs with hw | ⟨t, rfl, ht⟩
    · rw [sscanf_literal_cut hw]
      exact Nat.zero_le _
    · rw [sscanf_literal]
      exact length_sscanf_cut c.last ht
  · cases s with
    | nil =>
      rw [format_eq, sscanf_literal_cut List.nil_prefix]
      exact Nat.zero_le _
    | cons x s =>
      rw [format_eq]
      cases c <;> cases c' <;>
        simp_all [head, word, stateWord, entryWord, truncateWord, literal, sscanf]

/-- A record that breaks off before its last number is passed over. -/
theorem restoreLine_head_cut (p : PersistentState) {c : LogRecord} {s : List Char}
    (hs : s <+: c.head) : restoreLine p s = some p := by
  have hnul : '\x00' ∉ s := fun h =>
    c.nul_not_mem_line ((hs.trans c.head_isPrefix_line).subset h)
  have hst : (sscanf stateFormat s).length ≤ 1 := length_sscanf_head_cut (.state 0 0) hs
  have htr : (sscanf truncateFormat s).length ≤ 0 := length_sscanf_head_cut (.truncate 0) hs
  have hen : (sscanf entryFormat s).length ≤ 5 := length_sscanf_head_cut (.entry default) hs
  unfold restoreLine
  rw [cString_of_not_mem hnul]
  split
  · rename_i h; rw [h] at hst; simp at hst
  · split
    · rename_i h; rw [h] at htr; simp at htr
    · split
      · rename_i h; rw [h] at hen; simp at hen
      · rfl

/-- The digits that are there of the last number are a number of its width. -/
theorem last_shorten {c : LogRecord} {d d' : List Char} (h : d ++ d' = c.lastDigits)
    (hd : d ≠ []) : ∃ w, w ≤ 64 ∧ Nat.ofDigitChars 10 d 0 < 2 ^ w ∧
      c.format = literal c.word ++ (fieldsFormat c.fields ++ [.space, .unsigned w]) ∧
      (c.shorten d).last = .unsigned w (Nat.ofDigitChars 10 d 0) := by
  have hle : ∀ n, d ++ d' = decimal n → Nat.ofDigitChars 10 d 0 ≤ n := by
    intro n h
    rcases eq_or_ne d' [] with rfl | hd'
    · rw [List.append_nil] at h
      rw [h, ofDigitChars_decimal]
    · exact (ofDigitChars_cut h hd hd').2.le
  cases c with
  | state t v =>
    have hlt := (hle _ h).trans_lt v.toNat_lt
    exact ⟨64, le_rfl, hlt, rfl, by simp [shorten, last, UInt64.toNat_ofNat_of_lt' hlt]⟩
  | entry e =>
    have hlt := (hle _ h).trans_lt e.command.input.toNat_lt
    exact ⟨32, by decide, hlt, rfl, by simp [shorten, last, UInt32.toNat_ofNat_of_lt' hlt]⟩
  | truncate i =>
    have hlt := (hle _ h).trans_lt i.toNat_lt
    exact ⟨64, le_rfl, hlt, rfl, by simp [shorten, last, UInt64.toNat_ofNat_of_lt' hlt]⟩

/-- A record that breaks off within its last number is read with the digits that are there. -/
theorem restoreLine_shorten (p : PersistentState) {c : LogRecord} {d d' : List Char}
    (h : d ++ d' = c.lastDigits) (hd : d ≠ []) :
    restoreLine p (c.head ++ d) = (c.shorten d).replay p := by
  have hpre : c.head ++ d <+: c.line := ⟨d' ++ ['\n'], by simp [line_eq_head, ← h]⟩
  have hdig : ∀ x ∈ d, x.isDigit = true := fun x hx =>
    isDigit_of_mem_lastDigits (c := c) (h ▸ List.mem_append_left _ hx)
  obtain ⟨w, hw, hlt, hfmt, hlast⟩ := last_shorten h hd
  have hsame : (c.shorten d).word = c.word ∧ (c.shorten d).format = c.format ∧
      (c.shorten d).fields = c.fields := by
    cases c <;> exact ⟨rfl, rfl, rfl⟩
  apply restoreLine_eq_replay p
  · exact fun hn => c.nul_not_mem_line (hpre.subset hn)
  · rw [hsame.1, head, List.append_assoc]
    exact List.prefix_append _ _
  · have htext : c.head ++ d = c.word ++ (fieldsText c.fields ++ ' ' :: (d ++ [])) := by
      simp [head]
    have hfits : ∀ f ∈ c.fields, f.Fits := fun f hf => c.fits f (List.mem_append_left _ hf)
    rw [hsame.2.1, hsame.2.2, hlast, hfmt, htext, sscanf_literal,
      sscanf_fields hfits _ (by simp), sscanf_digits hw hdig hd rfl hlt endsNumber_nil]
    simp [Field.value]

/-- A vote, a command or a cut that was shortened is not the one that was written. -/
theorem shorten_replay {p p' : PersistentState} {c : LogRecord} {d d' : List Char}
    (hp : c.replay p = some p') (h : d ++ d' = c.lastDigits) (hd : d ≠ []) (hd' : d' ≠ []) :
    ∃ q, (c.shorten d).replay p = some q ∧ (q.Same p' → q.Same p) := by
  cases c with
  | state t v =>
    obtain ⟨-, hlt⟩ := ofDigitChars_cut h hd hd'
    obtain rfl := Option.some.inj hp
    refine ⟨_, rfl, fun hs => ?_⟩
    have hv := congrArg UInt64.toNat hs.votedFor
    simp only [UInt64.toNat_ofNat_of_lt' (hlt.trans v.toNat_lt)] at hv
    exact absurd hv hlt.ne
  | entry e =>
    obtain ⟨-, hlt⟩ := ofDigitChars_cut h hd hd'
    simp only [replay] at hp
    split at hp
    · rename_i he
      obtain rfl := Option.some.inj hp
      refine ⟨_, by rw [shorten, replay, if_pos he], fun hs => ?_⟩
      have hent := hs.entries
      simp only [PersistentState.entries_push, List.append_cancel_left_eq, List.cons.injEq,
        and_true] at hent
      have hi := congrArg (fun e : LogEntry => e.command.input.toNat) hent
      simp only [UInt32.toNat_ofNat_of_lt' (hlt.trans e.command.input.toNat_lt)] at hi
      exact absurd hi hlt.ne
    · cases hp
  | truncate i =>
    obtain ⟨hpos, hlt⟩ := ofDigitChars_cut h hd hd'
    have hto : (UInt64.ofNat (Nat.ofDigitChars 10 d 0)).toNat = Nat.ofDigitChars 10 d 0 :=
      UInt64.toNat_ofNat_of_lt' (hlt.trans i.toNat_lt)
    have hne : UInt64.ofNat (Nat.ofDigitChars 10 d 0) ≠ 0 := by
      intro h0
      rw [h0] at hto
      exact hpos.ne hto
    simp only [shorten, replay, if_neg hne, hto] at hp ⊢
    split at hp
    · cases hp
    · split at hp
      · rename_i hi
        obtain rfl := Option.some.inj hp
        refine ⟨_, if_pos (by omega), fun hs => ?_⟩
        have hlen := congrArg List.length hs.entries
        simp only [PersistentState.length_entries, PersistentState.truncate] at hlen
        omega
      · obtain rfl := Option.some.inj hp
        split
        · exact ⟨_, rfl, id⟩
        · exact ⟨_, rfl, id⟩

theorem isPrefix_line_cases {c : LogRecord} {s : List Char} (hs : s <+: c.line)
    (hlt : s.length < c.line.length) :
    '\n' ∉ s ∧ s.length < lineCap ∧
      (s <+: c.head ∨ ∃ d d', d ≠ [] ∧ d ++ d' = c.lastDigits ∧ s = c.head ++ d) := by
  obtain ⟨l, hl, hn, hlen⟩ := c.line_eq
  have hsl : s <+: l := by
    rw [hl] at hs hlt
    rcases List.prefix_concat_iff.mp hs with rfl | hs
    · exact absurd hlt (lt_irrefl _)
    · exact hs
  refine ⟨fun h => hn (hsl.subset h), hsl.length_le.trans_lt hlen, ?_⟩
  rw [line_eq_head] at hs hlt
  rcases isPrefix_append_cases hs with hs | ⟨d, rfl, hd⟩
  · exact Or.inl hs
  · rcases eq_or_ne d [] with rfl | hne
    · exact Or.inl (by simp)
    · rcases List.prefix_concat_iff.mp hd with rfl | ⟨d', h⟩
      · exact absurd hlt (lt_irrefl _)
      · exact Or.inr ⟨d, d', hne, h, rfl⟩

end LogRecord

/-! ## Prefixes of a file -/

/-- How many records lie whole within the first `k` characters. -/
def wholeRecords : List LogRecord → Nat → Nat
  | [], _ => 0
  | c :: cs, k => if c.line.length ≤ k then wholeRecords cs (k - c.line.length) + 1 else 0

/-- Reading a file with this text succeeds and gives this state. -/
def RestoresFrom (text : List Char) (q : PersistentState) : Prop :=
  ∀ clk (f : LogFile) id, f.content = some text →
    restorePstate (blankNode clk f id) = ({ blankNode clk f id with pstate := q }, true)

/-- The first `k` characters of the file restore what the whole records in them replay to, or
these and the one that breaks off. -/
def Survives (cs : List LogRecord) (k : Nat) : Prop :=
  ∃ q p n, RestoresFrom ((cs.flatMap LogRecord.line).take k) q ∧
    (n = wholeRecords cs k ∨ n = wholeRecords cs k + 1) ∧
    (cs.take n).foldlM LogRecord.replay initialPstate = some p ∧ q.Same p

/-- The file breaks off between two digits of the last number of a record, and the record so
shortened says something new. -/
def Misread (cs : List LogRecord) (k : Nat) : Prop :=
  ∃ c p d d', cs[wholeRecords cs k]? = some c ∧ d ≠ [] ∧ d' ≠ [] ∧ d ++ d' = c.lastDigits ∧
    (cs.flatMap LogRecord.line).take k =
      (cs.take (wholeRecords cs k)).flatMap LogRecord.line ++ (c.head ++ d) ∧
    (cs.take (wholeRecords cs k)).foldlM LogRecord.replay initialPstate = some p ∧
    ∀ q, (c.shorten d).replay p = some q → ¬ q.Same p

theorem restoresFrom_iff {text : List Char} {q : PersistentState} :
    RestoresFrom text q ↔ restoreLines initialPstate (fgets lineCap text) = (q, true) := by
  have hr : ∀ clk (f : LogFile) id, f.content = some text →
      restorePstate (blankNode clk f id) =
        ({ blankNode clk f id with
            pstate := (restoreLines initialPstate (fgets lineCap text)).1 },
          (restoreLines initialPstate (fgets lineCap text)).2) := by
    intro clk f id hf
    have hc : (blankNode clk f id).logFile.content = some text := hf
    unfold restorePstate
    rw [hc]
    rfl
  constructor
  · intro h
    have he := (hr ⟨0, 0⟩ ⟨false, some text, []⟩ 0 rfl).symm.trans (h _ _ _ rfl)
    have h₁ : (restoreLines initialPstate (fgets lineCap text)).1 = q :=
      congrArg (fun x : RaftNode × Bool => x.1.pstate) he
    have h₂ : (restoreLines initialPstate (fgets lineCap text)).2 = true :=
      congrArg (fun x : RaftNode × Bool => x.2) he
    exact Prod.ext h₁ h₂
  · intro h clk f id hf
    rw [hr clk f id hf, h]

/-- A prefix of a file is whole records and a part of the next one. -/
theorem take_flatMap_line (cs : List LogRecord) (k : Nat) :
    ∃ m, (cs.flatMap LogRecord.line).take k =
        (cs.take (wholeRecords cs k)).flatMap LogRecord.line ++ m ∧
      (m = [] ∨ ∃ c, cs[wholeRecords cs k]? = some c ∧ m <+: c.line ∧
        m.length < c.line.length) := by
  induction cs generalizing k with
  | nil => exact ⟨[], by simp [wholeRecords], Or.inl rfl⟩
  | cons c cs ih =>
    unfold wholeRecords
    split
    · rename_i hk
      obtain ⟨m, hm, hcases⟩ := ih (k - c.line.length)
      refine ⟨m, ?_, by simpa using hcases⟩
      rw [List.flatMap_cons, List.take_append, List.take_of_length_le hk, hm, List.take_succ_cons,
        List.flatMap_cons, List.append_assoc]
    · rename_i hk
      have hk' := not_le.mp hk
      refine ⟨c.line.take k, ?_, Or.inr ⟨c, rfl, List.take_prefix _ _, ?_⟩⟩
      · rw [List.flatMap_cons, List.take_append_of_le_length hk'.le]
        rfl
      · rw [List.length_take]
        exact (min_le_left _ _).trans_lt hk'

theorem restoreLines_part {cs : List LogRecord} {p : PersistentState}
    (h : cs.foldlM LogRecord.replay initialPstate = some p) {m : List Char} (hn : '\n' ∉ m)
    (hlen : m.length < lineCap) {q : PersistentState} (hq : restoreLine p m = some q)
    (hm : m ≠ []) : RestoresFrom (cs.flatMap LogRecord.line ++ m) q := by
  rw [restoresFrom_iff, LogRecord.fgets_flatMap_line_append, LogRecord.restoreLines_map_line h,
    fgets_rest hn hlen, if_neg hm, restoreLines, hq]
  rfl

theorem RestoresFrom.unique {text : List Char} {q q' : PersistentState}
    (h : RestoresFrom text q) (h' : RestoresFrom text q') : q = q' := by
  rw [restoresFrom_iff] at h h'
  exact congrArg Prod.fst (h.symm.trans h')

/-- The records before the break, and the one at the break, replay. -/
theorem replay_take {cs : List LogRecord} {p₀ p : PersistentState}
    (h : cs.foldlM LogRecord.replay p₀ = some p) (n : Nat) :
    ∃ p₁, (cs.take n).foldlM LogRecord.replay p₀ = some p₁ ∧
      ∀ c, cs[n]? = some c → ∃ p₂, c.replay p₁ = some p₂ ∧
        (cs.take (n + 1)).foldlM LogRecord.replay p₀ = some p₂ := by
  rw [← List.take_append_drop n cs, List.foldlM_append] at h
  obtain ⟨p₁, h₁, h₂⟩ := Option.bind_eq_some_iff.mp h
  refine ⟨p₁, h₁, fun c hc => ?_⟩
  obtain ⟨hn, rfl⟩ := List.getElem?_eq_some_iff.mp hc
  rw [List.drop_eq_getElem_cons hn, List.foldlM_cons] at h₂
  obtain ⟨p₂, hp₂, -⟩ := Option.bind_eq_some_iff.mp h₂
  refine ⟨p₂, hp₂, ?_⟩
  rw [List.take_succ_eq_append_getElem hn, List.foldlM_append, h₁]
  simpa using hp₂

/-- A file that breaks off restores whole records, unless it breaks off between two digits of the
last number of a record. -/
theorem survives_iff {cs : List LogRecord} {p : PersistentState}
    (h : cs.foldlM LogRecord.replay initialPstate = some p) (k : Nat) :
    Survives cs k ↔ ¬ Misread cs k := by
  obtain ⟨p₁, h₁, hnext⟩ := replay_take h (wholeRecords cs k)
  constructor
  · rintro ⟨q, p', n, hq, hn, hp', hsame⟩ ⟨c, p₁', d, d', hc, hd, hd', hdig, htext, hp₁', hnew⟩
    obtain rfl : p₁ = p₁' := Option.some.inj (h₁.symm.trans hp₁')
    obtain ⟨p₂, hp₂, h₂⟩ := hnext c hc
    obtain ⟨q', hq', himp⟩ := LogRecord.shorten_replay hp₂ hdig hd hd'
    have hlen : (c.head ++ d).length < c.line.length := by
      have hd'pos := List.length_pos_iff.mpr hd'
      simp only [LogRecord.line_eq_head, ← hdig, List.length_append]
      omega
    have hpre : c.head ++ d <+: c.line := by
      rw [LogRecord.line_eq_head, ← hdig]
      exact ⟨d' ++ ['\n'], by simp⟩
    obtain ⟨hnl, hcap, -⟩ := LogRecord.isPrefix_line_cases hpre hlen
    have hread := LogRecord.restoreLine_shorten p₁ hdig hd
    have hrest := restoreLines_part h₁ hnl hcap (hread.trans hq') (by simp [hd])
    rw [← htext] at hrest
    obtain rfl := hq.unique hrest
    rcases hn with rfl | rfl
    · obtain rfl : p₁ = p' := Option.some.inj (h₁.symm.trans hp')
      exact hnew _ hq' hsame
    · obtain rfl : p₂ = p' := Option.some.inj (h₂.symm.trans hp')
      exact hnew _ hq' (himp hsame)
  · intro hnot
    have hkeep : ∀ q, RestoresFrom ((cs.flatMap LogRecord.line).take k) q → q.Same p₁ →
        Survives cs k := fun q hq hs => ⟨q, p₁, _, hq, Or.inl rfl, h₁, hs⟩
    obtain ⟨m, hm, hcut⟩ := take_flatMap_line cs k
    rcases eq_or_ne m [] with rfl | hne
    · apply hkeep p₁ _ (.refl p₁)
      rw [hm, restoresFrom_iff, List.append_nil]
      exact LogRecord.restoreLines_flatMap_line h₁
    · rcases hcut with rfl | ⟨c, hc, hpre, hlen⟩
      · exact absurd rfl hne
      obtain ⟨hnl, hcap, hhead | ⟨d, d', hd, hdig, rfl⟩⟩ :=
        LogRecord.isPrefix_line_cases hpre hlen
      · have hread := LogRecord.restoreLine_head_cut p₁ hhead
        exact hkeep p₁ (hm ▸ restoreLines_part h₁ hnl hcap hread hne) (.refl p₁)
      · obtain ⟨p₂, hp₂, h₂⟩ := hnext c hc
        have hread := LogRecord.restoreLine_shorten p₁ hdig hd
        rcases eq_or_ne d' [] with rfl | hd'
        · -- only the newline is missing
          have hfull : c.shorten d = c := by
            rw [List.append_nil] at hdig
            rw [hdig, c.shorten_lastDigits]
          rw [hfull, hp₂] at hread
          exact ⟨p₂, p₂, _, hm ▸ restoreLines_part h₁ hnl hcap hread hne, Or.inr rfl, h₂, .refl p₂⟩
        · obtain ⟨q, hq, -⟩ := LogRecord.shorten_replay hp₂ hdig hd hd'
          have hrest := hm ▸ restoreLines_part h₁ hnl hcap (hread.trans hq) hne
          by_contra hsurv
          refine hnot ⟨c, p₁, d, d', hc, hd, hd', hdig, hm, h₁, fun q' hq' hs => ?_⟩
          obtain rfl := Option.some.inj (hq.symm.trans hq')
          exact hsurv (hkeep q hrest hs)

/-! ## Runs -/

/-- Whatever a node does, and whatever of its writes fail: cut off anywhere, its file restores
whole records, unless it breaks off between two digits of the last number of a record. -/
theorem torn_tail_iff (clk : Clock) (id : UInt64) (peers : List UInt64)
    (ops : List (List Bool × NodeOp)) (cs : List LogRecord)
    (hcs : (runNode (freshNode clk id peers) ops).logFile.content.getD [] =
      cs.flatMap LogRecord.line) (k : Nat) : Survives cs k ↔ ¬ Misread cs k := by
  have hfresh := (freshNode_inSync clk id peers).1
  obtain ⟨t, v, cs', p, hcs', hp, -⟩ := runNode_restorable ops ⟨_, _, hfresh⟩
  have hline := (LogRecord.fgets_flatMap_line cs).symm.trans
    ((congrArg (fgets lineCap) (hcs.symm.trans hcs')).trans (LogRecord.fgets_flatMap_line cs'))
  obtain rfl : cs = cs' := LogRecord.line_injective.list_map hline
  exact survives_iff hp k

/-- A candidacy of node 12 whose line lacks all but its first two characters. -/
theorem torn_tail_iff_candidacy : Survives [.state 1 12] 2 ↔ ¬ Misread [.state 1 12] 2 :=
  torn_tail_iff ⟨0, 0⟩ 12 [2, 3] [([], .timeout ⟨1000, 0⟩ 8)] [.state 1 12] (by decide +kernel) 2

/-- The line `STATE 1 12` of the candidacy of node 12 breaks off behind its ninth character: the
node restarts with a vote for node 1. -/
theorem torn_vote :
    ¬ ∀ (clk : Clock) (id : UInt64) (peers : List UInt64) (ops : List (List Bool × NodeOp))
      (cs : List LogRecord),
      (runNode (freshNode clk id peers) ops).logFile.content.getD [] =
        cs.flatMap LogRecord.line → ∀ k, Survives cs k := by
  intro h
  obtain ⟨q, p, n, hq, hn, hp, hs⟩ :=
    h ⟨0, 0⟩ 12 [2, 3] [([], .timeout ⟨1000, 0⟩ 8)] [.state 1 12] (by decide +kernel) 9
  have hv : q.votedFor = 1 := by
    rw [restoresFrom_iff] at hq
    rw [← congrArg (fun x : PersistentState × Bool => x.1.votedFor) hq]
    decide +kernel
  have hwhole : wholeRecords [.state 1 12] 9 = 0 := by decide +kernel
  rw [hwhole] at hn
  have hp' : p.votedFor = raftNone ∨ p.votedFor = 12 := by
    rcases hn with rfl | rfl
    · obtain rfl := Option.some.inj hp
      exact Or.inl rfl
    · obtain rfl := Option.some.inj hp
      exact Or.inr rfl
  rw [← hs.votedFor, hv] at hp'
  revert hp'
  decide

end Corestack.Raft

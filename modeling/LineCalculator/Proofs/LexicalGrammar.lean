import Mathlib.Data.List.Chain
import Mathlib.Data.List.TakeWhile
import LineCalculator.Token

/-!
# The lexical grammar

A line is split into tokens with blanks around and between them. Blanks may be missing anywhere but
between two numbers and between two words, which would otherwise be one. Scanning finds the tokens
of such a split: every line has one, and no line has two with different tokens.
-/
namespace LineCalculator

namespace Token

/-- The text that a token of its kind may have. The end of the line is not cut from any text. -/
def WellShaped (t : Token) : Prop :=
  match t.kind with
  | .number => t.text ≠ "" ∧ ∀ c ∈ t.text.toList, isNumeral c = true
  | .function => t.text = "root"
  | .print => t.text = "print"
  | .name => t.text ≠ "" ∧ (∀ c ∈ t.text.toList, isLetter c = true) ∧
      t.text ≠ "root" ∧ t.text ≠ "print"
  | .operator => t.text ∈ ["+", "-", "*", "/", "^"]
  | .openParen => t.text = "("
  | .closeParen => t.text = ")"
  | .equals => t.text = "="
  | .stray => ∃ c, t.text = String.ofList [c] ∧ isBlank c = false ∧ isNumeral c = false ∧
      isLetter c = false ∧ c ∉ ['+', '-', '*', '/', '^', '(', ')', '=']
  | .endOfLine => False

/-- A variable or a keyword. -/
def IsWord (t : Token) : Prop := t.kind = .name ∨ t.kind = .function ∨ t.kind = .print

instance (t : Token) : Decidable t.IsWord :=
  inferInstanceAs (Decidable (t.kind = .name ∨ t.kind = .function ∨ t.kind = .print))

/-- Two tokens that are one run when nothing stands between them. -/
def Joins (t u : Token) : Prop :=
  (t.kind = .number ∧ u.kind = .number) ∨ (t.IsWord ∧ u.IsWord)

/-- A character that makes a token longer. -/
def Extends (t : Token) (c : Char) : Prop :=
  (t.kind = .number ∧ isNumeral c = true) ∨ (t.IsWord ∧ isLetter c = true)

end Token

/-- A run of blanks, possibly empty. -/
def IsBlankRun (run : List Char) : Prop := ∀ c ∈ run, isBlank c = true

/-- Blanks, and tokens each with the blanks behind it, written one after another. -/
def layout (lead : List Char) (pieces : List (Token × List Char)) : List Char :=
  lead ++ pieces.flatMap fun piece => piece.1.text.toList ++ piece.2

/-- A text as blanks and tokens. -/
structure IsSplit (text lead : List Char) (pieces : List (Token × List Char)) : Prop where
  text_eq : text = layout lead pieces
  lead_blank : IsBlankRun lead
  shaped : ∀ piece ∈ pieces, piece.1.WellShaped
  gaps_blank : ∀ piece ∈ pieces, IsBlankRun piece.2
  apart : pieces.IsChain fun piece next => piece.1.Joins next.1 → piece.2 ≠ []

/-- A line that can be split into the given tokens. -/
def SplitsInto (line : String) (tokens : List Token) : Prop :=
  ∃ lead pieces, IsSplit line.toList lead pieces ∧ pieces.map Prod.fst = tokens

theorem not_run_of_isBlank {c : Char} (h : isBlank c = true) :
    isNumeral c = false ∧ isLetter c = false := by
  simp only [isBlank, Bool.or_eq_true, decide_eq_true_eq, or_assoc] at h
  rcases h with rfl | rfl | rfl | rfl | rfl | rfl <;> decide

theorem isBlank_of_isNumeral {c : Char} (h : isNumeral c = true) : isBlank c = false := by
  cases hblank : isBlank c with
  | false => rfl
  | true => rw [(not_run_of_isBlank hblank).1] at h; cases h

theorem isBlank_of_isLetter {c : Char} (h : isLetter c = true) : isBlank c = false := by
  cases hblank : isBlank c with
  | false => rfl
  | true => rw [(not_run_of_isBlank hblank).2] at h; cases h

theorem isLetter_of_isNumeral {c : Char} (h : isNumeral c = true) : isLetter c = false := by
  simp only [isNumeral, Bool.or_eq_true, decide_eq_true_eq] at h
  rcases h with hdigit | rfl
  · have hletter : isLetter c =
        (decide (c.val ≥ 65 ∧ c.val ≤ 90) || (c.val ≥ 97 && c.val ≤ 122)) := rfl
    have hrange : (c.val ≥ 48 && c.val ≤ 57) = true := hdigit
    rw [hletter]
    grind
  · decide

namespace Token

variable {t u : Token} {c : Char} {rest : List Char}

/-- The three ways in which a token is cut from a text: a number run, a word and a mark. -/
inductive Cut : Token → Prop where
  | numeral {c : Char} {run : List Char} (hrun : ∀ d ∈ c :: run, isNumeral d = true) :
      Cut (ofNumeral (c :: run))
  | word {c : Char} {run : List Char} (hrun : ∀ d ∈ c :: run, isLetter d = true) :
      Cut (ofWord (c :: run))
  | mark {c : Char} (hblank : isBlank c = false) (hnumeral : isNumeral c = false)
      (hletter : isLetter c = false) : Cut (ofMark c)

theorem exists_run {text : String} (h : text ≠ "") :
    ∃ c run, text.toList = c :: run ∧ text = String.ofList (c :: run) := by
  cases hrun : text.toList with
  | nil => exact absurd (String.toList_eq_nil_iff.mp hrun) h
  | cons c run => exact ⟨c, run, rfl, by rw [← hrun, String.ofList_toList]⟩

theorem wordKind_eq_name {run : List Char} (hroot : String.ofList run ≠ "root")
    (hprint : String.ofList run ≠ "print") : wordKind run = .name := by
  have hroot' : run ≠ ['r', 'o', 'o', 't'] := by rintro rfl; exact hroot rfl
  have hprint' : run ≠ ['p', 'r', 'i', 'n', 't'] := by rintro rfl; exact hprint rfl
  rw [wordKind, if_neg hroot', if_neg hprint']

theorem cut_of_wellShaped (h : t.WellShaped) : t.Cut := by
  obtain ⟨kind, text⟩ := t
  cases kind with
  | number =>
    obtain ⟨hne, hall⟩ := h
    obtain ⟨c, run, hrun, rfl⟩ := exists_run hne
    exact .numeral (hrun ▸ hall)
  | name =>
    obtain ⟨hne, hall, hroot, hprint⟩ := h
    obtain ⟨c, run, hrun, rfl⟩ := exists_run hne
    have hword := Cut.word (hrun ▸ hall)
    rwa [ofWord, wordKind_eq_name hroot hprint] at hword
  | function =>
    obtain rfl : text = "root" := h
    exact @Cut.word 'r' ['o', 'o', 't'] (by simp [isLetter])
  | print =>
    obtain rfl : text = "print" := h
    exact @Cut.word 'p' ['r', 'i', 'n', 't'] (by simp [isLetter])
  | operator =>
    have hsign : text ∈ ["+", "-", "*", "/", "^"] := h
    simp only [List.mem_cons, List.not_mem_nil, or_false] at hsign
    rcases hsign with rfl | rfl | rfl | rfl | rfl
    · exact Cut.mark (c := '+') rfl rfl rfl
    · exact Cut.mark (c := '-') rfl rfl rfl
    · exact Cut.mark (c := '*') rfl rfl rfl
    · exact Cut.mark (c := '/') rfl rfl rfl
    · exact Cut.mark (c := '^') rfl rfl rfl
  | openParen =>
    obtain rfl : text = "(" := h
    exact Cut.mark (c := '(') rfl rfl rfl
  | closeParen =>
    obtain rfl : text = ")" := h
    exact Cut.mark (c := ')') rfl rfl rfl
  | equals =>
    obtain rfl : text = "=" := h
    exact Cut.mark (c := '=') rfl rfl rfl
  | endOfLine => exact h.elim
  | stray =>
    obtain ⟨c, htext, hblank, hnumeral, hletter, hsign⟩ := h
    obtain rfl : text = String.ofList [c] := htext
    have hmark := Cut.mark hblank hnumeral hletter
    simp only [List.mem_cons, List.not_mem_nil, or_false, not_or] at hsign
    have hkind : markKind c = .stray := by simp [markKind, hsign]
    rwa [ofMark, hkind] at hmark

theorem Cut.wellShaped (h : t.Cut) : t.WellShaped := by
  cases h with
  | numeral hrun => exact ⟨by simp [ofNumeral], by simpa [ofNumeral] using hrun⟩
  | @word c run hrun =>
    by_cases hroot : c :: run = ['r', 'o', 'o', 't']
    · rw [hroot]
      rfl
    by_cases hprint : c :: run = ['p', 'r', 'i', 'n', 't']
    · rw [hprint]
      rfl
    have hroot' : String.ofList (c :: run) ≠ "root" := fun h => hroot (String.ofList_injective h)
    have hprint' : String.ofList (c :: run) ≠ "print" :=
      fun h => hprint (String.ofList_injective h)
    rw [ofWord, wordKind_eq_name hroot' hprint']
    exact ⟨by simp, by simpa using hrun, hroot', hprint'⟩
  | @mark c hblank hnumeral hletter =>
    by_cases hsign : c ∈ ['+', '-', '*', '/', '^', '(', ')', '=']
    · simp only [List.mem_cons, List.not_mem_nil, or_false] at hsign
      rcases hsign with rfl | rfl | rfl | rfl | rfl | rfl | rfl | rfl <;>
        simp [WellShaped, ofMark, markKind]
    · have hkind : markKind c = .stray := by
        simp only [List.mem_cons, List.not_mem_nil, or_false, not_or] at hsign
        simp [markKind, hsign]
      rw [ofMark, hkind]
      exact ⟨c, rfl, hblank, hnumeral, hletter, hsign⟩

theorem span_run {p : Char → Bool} {run rest : List Char} (hrun : ∀ d ∈ run, p d = true)
    (hrest : ∀ d, rest.head? = some d → p d = false) :
    (run ++ rest).takeWhile p = run ∧ (run ++ rest).dropWhile p = rest := by
  rw [List.takeWhile_append_of_pos hrun, List.dropWhile_append_of_pos hrun]
  cases rest with
  | nil => exact ⟨List.append_nil run, rfl⟩
  | cons d rest => simp [hrest d rfl]

theorem isWord_ofWord (word : List Char) : (ofWord word).IsWord := by
  unfold ofWord wordKind IsWord
  split
  · exact .inr (.inl rfl)
  · split
    · exact .inr (.inr rfl)
    · exact .inl rfl

theorem kind_ofMark (c : Char) : (ofMark c).kind ≠ .number ∧ ¬ (ofMark c).IsWord := by
  have hkind : (ofMark c).kind = markKind c := rfl
  unfold IsWord
  rw [hkind]
  unfold markKind
  repeat' split
  all_goals simp

/-- A token at the front of a text is scanned whole, unless the text behind it makes it longer. -/
theorem lexemes_append (h : t.Cut) (hrest : ∀ c, rest.head? = some c → ¬ t.Extends c) :
    lexemes (t.text.toList ++ rest) = t :: lexemes rest := by
  cases h with
  | @numeral c run hrun =>
    have hc : isNumeral c = true := hrun c List.mem_cons_self
    have hstop : ∀ d, rest.head? = some d → isNumeral d = false := fun d hd => by
      simpa using fun hn => hrest d hd (.inl ⟨rfl, hn⟩)
    obtain ⟨htake, hdrop⟩ := span_run (fun d hd => hrun d (List.mem_cons_of_mem c hd)) hstop
    simp only [ofNumeral, String.toList_ofList, List.cons_append]
    rw [lexemes_cons, if_neg (by simp [isBlank_of_isNumeral hc]), if_pos hc, htake, hdrop]
    rfl
  | @word c run hrun =>
    have hc : isLetter c = true := hrun c List.mem_cons_self
    have hnumeral : isNumeral c ≠ true := fun hn => by simp [isLetter_of_isNumeral hn] at hc
    have hstop : ∀ d, rest.head? = some d → isLetter d = false := fun d hd => by
      simpa using fun hl => hrest d hd (.inr ⟨isWord_ofWord _, hl⟩)
    obtain ⟨htake, hdrop⟩ := span_run (fun d hd => hrun d (List.mem_cons_of_mem c hd)) hstop
    simp only [ofWord, String.toList_ofList, List.cons_append]
    rw [lexemes_cons, if_neg (by simp [isBlank_of_isLetter hc]), if_neg hnumeral, if_pos hc,
      htake, hdrop]
    rfl
  | @mark c hblank hnumeral hletter =>
    simp only [ofMark, String.toList_ofList, List.cons_append, List.nil_append]
    rw [lexemes_cons, if_neg (by simp [hblank]), if_neg (by simp [hnumeral]),
      if_neg (by simp [hletter])]
    rfl

theorem lexemes_blank_append {run : List Char} (h : IsBlankRun run) :
    lexemes (run ++ rest) = lexemes rest := by
  induction run with
  | nil => rfl
  | cons c run ih =>
    rw [List.cons_append, lexemes_cons, if_pos (h c List.mem_cons_self)]
    exact ih fun d hd => h d (List.mem_cons_of_mem c hd)

theorem span_append_cons {p : Char → Bool} (hc : p c = false) (text rest : List Char) :
    (text ++ c :: rest).takeWhile p = text.takeWhile p ∧
      (text ++ c :: rest).dropWhile p = text.dropWhile p ++ c :: rest := by
  induction text with
  | nil => simp [hc]
  | cons d text ih => cases hd : p d <;> simp [hd, ih]

/-- A mark ends the token before it. -/
theorem lexemes_append_mark (hblank : isBlank c = false) (hnumeral : isNumeral c = false)
    (hletter : isLetter c = false) (text rest : List Char) :
    lexemes (text ++ c :: rest) = lexemes text ++ ofMark c :: lexemes rest := by
  fun_induction lexemes text with
  | case1 =>
    rw [List.nil_append, lexemes_cons, hblank, hnumeral, hletter]
    rfl
  | case2 d text hd ih =>
    rw [List.cons_append, lexemes_cons, if_pos hd]
    exact ih
  | case3 d text hd hrun ih =>
    obtain ⟨htake, hdrop⟩ := span_append_cons hnumeral text rest
    rw [List.cons_append, lexemes_cons, if_neg hd, if_pos hrun, htake, hdrop, ih]
    rfl
  | case4 d text hd hnot hrun ih =>
    obtain ⟨htake, hdrop⟩ := span_append_cons hletter text rest
    rw [List.cons_append, lexemes_cons, if_neg hd, if_neg hnot, if_pos hrun, htake, hdrop, ih]
    rfl
  | case5 d text hd hnot hword ih =>
    rw [List.cons_append, lexemes_cons, if_neg hd, if_neg hnot, if_neg hword, ih]
    rfl

/-- Whether two tokens are one run shows in the first character of the second. -/
theorem joins_iff_extends (hu : u.Cut) (hc : u.text.toList.head? = some c) :
    t.Joins u ↔ t.Extends c := by
  cases hu with
  | @numeral d run hrun =>
    have hd : isNumeral d = true := hrun d List.mem_cons_self
    obtain rfl : d = c := by simpa [ofNumeral] using hc
    simp [Joins, Extends, ofNumeral, hd, isLetter_of_isNumeral hd, IsWord]
  | @word d run hrun =>
    have hd : isLetter d = true := hrun d List.mem_cons_self
    have hnumeral : isNumeral d = false := by
      cases hn : isNumeral d with
      | false => rfl
      | true => rw [isLetter_of_isNumeral hn] at hd; cases hd
    obtain rfl : d = c := by simpa [ofWord] using hc
    have hword : (ofWord (d :: run)).IsWord := isWord_ofWord _
    have hkind : (ofWord (d :: run)).kind ≠ .number := by
      intro hnumber
      simp [IsWord, hnumber] at hword
    simp [Joins, Extends, hd, hnumeral, hword, hkind]
  | @mark d hblank hnumeral hletter =>
    obtain rfl : d = c := by simpa [ofMark] using hc
    obtain ⟨hkind, hword⟩ := kind_ofMark d
    simp [Joins, Extends, hnumeral, hletter, hkind, hword]

theorem Cut.exists_head (h : t.Cut) : ∃ c, t.text.toList.head? = some c ∧ isBlank c = false := by
  cases h with
  | @numeral c run hrun =>
    exact ⟨c, by simp [ofNumeral], isBlank_of_isNumeral (hrun c List.mem_cons_self)⟩
  | @word c run hrun =>
    exact ⟨c, by simp [ofWord], isBlank_of_isLetter (hrun c List.mem_cons_self)⟩
  | @mark c hblank _ _ => exact ⟨c, by simp [ofMark], hblank⟩

end Token

open Token

variable {text lead gap : List Char} {pieces : List (Token × List Char)} {t : Token}

theorem layout_cons (lead gap : List Char) (t : Token) (pieces : List (Token × List Char)) :
    layout lead ((t, gap) :: pieces) = lead ++ (t.text.toList ++ layout gap pieces) := by
  simp [layout, List.append_assoc]

namespace IsSplit

/-- The first piece needs blanks behind it exactly when the next character makes it longer. -/
theorem not_extends_iff (h : IsSplit text lead pieces) (t : Token) :
    (∀ c, text.head? = some c → ¬ t.Extends c) ↔
      ∀ next ∈ pieces.head?, t.Joins next.1 → lead ≠ [] := by
  cases lead with
  | cons d lead =>
    have hd := not_run_of_isBlank (h.lead_blank d List.mem_cons_self)
    have hhead : text.head? = some d := by rw [h.text_eq]; rfl
    constructor
    · intro _ _ _ _
      exact List.cons_ne_nil d lead
    · intro _ c hc
      rw [hhead] at hc
      cases hc
      simp [Extends, hd]
  | nil =>
    cases pieces with
    | nil => simp [h.text_eq, layout]
    | cons next pieces =>
      have hcut := cut_of_wellShaped (h.shaped next List.mem_cons_self)
      obtain ⟨c, hc, -⟩ := hcut.exists_head
      have hhead : text.head? = some c := by
        rw [h.text_eq, layout_cons, List.nil_append, List.head?_append, hc]
        rfl
      have hjoins := joins_iff_extends (t := t) hcut hc
      simp [hhead, hjoins]

theorem cons (h : IsSplit text gap pieces) (hshape : t.WellShaped)
    (hstop : ∀ c, text.head? = some c → ¬ t.Extends c) :
    IsSplit (t.text.toList ++ text) [] ((t, gap) :: pieces) := by
  constructor
  · rw [layout_cons, List.nil_append, h.text_eq]
  · intro c hc
    cases hc
  · intro piece hpiece
    rcases List.mem_cons.mp hpiece with rfl | hmem
    · exact hshape
    · exact h.shaped piece hmem
  · intro piece hpiece
    rcases List.mem_cons.mp hpiece with rfl | hmem
    · exact h.lead_blank
    · exact h.gaps_blank piece hmem
  · exact List.isChain_cons.mpr ⟨(h.not_extends_iff t).mp hstop, h.apart⟩

theorem tail (h : IsSplit text lead ((t, gap) :: pieces)) :
    IsSplit (layout gap pieces) gap pieces := by
  constructor
  · rfl
  · exact h.gaps_blank _ List.mem_cons_self
  · exact fun piece hpiece => h.shaped piece (List.mem_cons_of_mem _ hpiece)
  · exact fun piece hpiece => h.gaps_blank piece (List.mem_cons_of_mem _ hpiece)
  · exact (List.isChain_cons.mp h.apart).2

theorem blank {c : Char} (h : IsSplit text lead pieces) (hc : isBlank c = true) :
    IsSplit (c :: text) (c :: lead) pieces := by
  constructor
  · rw [h.text_eq]
    rfl
  · intro d hd
    rcases List.mem_cons.mp hd with rfl | hmem
    · exact hc
    · exact h.lead_blank d hmem
  · exact h.shaped
  · exact h.gaps_blank
  · exact h.apart

/-- The tokens of a split are scanned, and no others. -/
theorem lexemes_eq (h : IsSplit text lead pieces) : lexemes text = pieces.map Prod.fst := by
  induction pieces generalizing text lead with
  | nil =>
    have htext : text = lead ++ [] := by rw [h.text_eq]; rfl
    rw [htext, lexemes_blank_append h.lead_blank, lexemes_nil, List.map_nil]
  | cons piece pieces ih =>
    obtain ⟨t, gap⟩ := piece
    have hcut := cut_of_wellShaped (h.shaped _ List.mem_cons_self)
    have hstop := (h.tail.not_extends_iff t).mpr (List.isChain_cons.mp h.apart).1
    rw [h.text_eq, layout_cons, lexemes_blank_append h.lead_blank, lexemes_append hcut hstop,
      ih h.tail, List.map_cons]

end IsSplit

theorem isSplit_nil : IsSplit [] [] [] := by
  constructor
  · rfl
  all_goals simp [IsBlankRun]

/-- What stops a run is no part of it. -/
theorem head?_dropWhile {p : Char → Bool} {rest : List Char} {c : Char}
    (h : (rest.dropWhile p).head? = some c) : p c = false := by
  have hstop := List.head?_dropWhile_not p rest
  rw [h] at hstop
  exact hstop

/-- A run at the front of a text and the split behind it. -/
theorem exists_split_run {p : Char → Bool} {t : Token} {c : Char} {rest : List Char}
    (hcut : t.Cut) (htext : t.text.toList = c :: rest.takeWhile p)
    (hstop : ∀ d, t.Extends d → p d = true)
    (h : ∃ lead pieces, IsSplit (rest.dropWhile p) lead pieces ∧
      pieces.map Prod.fst = lexemes (rest.dropWhile p)) :
    ∃ lead pieces, IsSplit (c :: rest) lead pieces ∧
      pieces.map Prod.fst = t :: lexemes (rest.dropWhile p) := by
  obtain ⟨gap, pieces, hsplit, htokens⟩ := h
  have hcons := hsplit.cons hcut.wellShaped fun d hd hextends => by
    have hp := hstop d hextends
    rw [head?_dropWhile hd] at hp
    cases hp
  rw [htext, List.cons_append, List.takeWhile_append_dropWhile] at hcons
  exact ⟨[], _, hcons, by rw [List.map_cons, htokens]⟩

theorem exists_split (text : List Char) :
    ∃ lead pieces, IsSplit text lead pieces ∧ pieces.map Prod.fst = lexemes text := by
  induction text using lexemes.induct with
  | case1 => exact ⟨[], [], isSplit_nil, by rw [lexemes_nil, List.map_nil]⟩
  | case2 c rest hblank ih =>
    obtain ⟨lead, pieces, hsplit, htokens⟩ := ih
    rw [lexemes_cons, if_pos hblank]
    exact ⟨c :: lead, pieces, hsplit.blank hblank, htokens⟩
  | case3 c rest hblank hnumeral ih =>
    rw [lexemes_cons, if_neg hblank, if_pos hnumeral]
    refine exists_split_run (.numeral ?_) (by simp [ofNumeral]) ?_ ih
    · intro d hd
      rcases List.mem_cons.mp hd with rfl | hmem
      · exact hnumeral
      · exact List.mem_takeWhile_imp hmem
    · intro d hd
      simpa [Extends, ofNumeral, IsWord] using hd
  | case4 c rest hblank hnumeral hletter ih =>
    rw [lexemes_cons, if_neg hblank, if_neg hnumeral, if_pos hletter]
    refine exists_split_run (.word ?_) (by simp [ofWord]) ?_ ih
    · intro d hd
      rcases List.mem_cons.mp hd with rfl | hmem
      · exact hletter
      · exact List.mem_takeWhile_imp hmem
    · intro d hd
      rcases hd with ⟨hnumber, -⟩ | ⟨-, hletter⟩
      · have hword : (ofWord (c :: rest.takeWhile isLetter)).IsWord := isWord_ofWord _
        simp [IsWord, hnumber] at hword
      · exact hletter
  | case5 c rest hblank hnumeral hletter ih =>
    obtain ⟨gap, pieces, hsplit, htokens⟩ := ih
    have hcut : (ofMark c).Cut := .mark (by simpa using hblank) (by simpa using hnumeral)
      (by simpa using hletter)
    have hcons := hsplit.cons hcut.wellShaped fun d _ hextends => by
      simp [Extends, kind_ofMark c] at hextends
    rw [lexemes_cons, if_neg hblank, if_neg hnumeral, if_neg hletter, ← htokens]
    exact ⟨[], _, by simpa [ofMark] using hcons, rfl⟩

theorem scan_eq_append_iff {line : String} {tokens : List Token} :
    scan line = tokens ++ [.endOfLine] ↔ lexemes line.toList = tokens := by
  rw [scan, List.append_cancel_right_eq]

theorem lexemes_eq_iff_splitsInto {line : String} {tokens : List Token} :
    lexemes line.toList = tokens ↔ SplitsInto line tokens := by
  constructor
  · rintro rfl
    exact exists_split line.toList
  · rintro ⟨lead, pieces, hsplit, rfl⟩
    exact hsplit.lexemes_eq

/-- What is scanned is a token of a split. -/
theorem Token.wellShaped_of_mem {text : List Char} {t : Token} (h : t ∈ lexemes text) :
    t.WellShaped := by
  obtain ⟨lead, pieces, hsplit, htokens⟩ := exists_split text
  rw [← htokens] at h
  obtain ⟨piece, hpiece, rfl⟩ := List.mem_map.mp h
  exact hsplit.shaped piece hpiece

/-- Scanning a line gives the tokens that the line can be split into, which every line determines,
and the end of the line behind them. -/
theorem scan_iff_splitsInto (line : String) :
    (∀ tokens, scan line = tokens ++ [.endOfLine] ↔ SplitsInto line tokens) ∧
      ∃! tokens, SplitsInto line tokens := by
  constructor
  · intro tokens
    rw [scan_eq_append_iff, lexemes_eq_iff_splitsInto]
  · refine ⟨lexemes line.toList, lexemes_eq_iff_splitsInto.mp rfl, ?_⟩
    intro tokens htokens
    exact (lexemes_eq_iff_splitsInto.mpr htokens).symm

end LineCalculator

import CellLisp.Proofs.Grammar
import CellLisp.Proofs.Literal

namespace CellLisp

namespace Position

-- The place of what comes next after the first characters of a text. Its line is told by the ends of lines
-- before it, and its column by the characters after the last of these.
def behind (before : List Char) : Position :=
  ⟨1 + before.count '\n', 1 + (before.reverse.takeWhile (· != '\n')).length⟩

variable {cs ds : List Char} {c : Char}

theorem next_behind : (behind cs).next c = behind (cs ++ [c]) := by
  unfold next behind
  split
  case isTrue hc  => simp [hc, Nat.add_assoc]
  case isFalse hc => simp [hc, List.count_cons_of_ne hc, Nat.add_assoc]

theorem behind_append : behind (cs ++ ds) = (behind cs).after ds := by
  induction ds generalizing cs
  case nil          => simp
  case cons d ds hi => rw [after_cons, next_behind, ← hi, List.append_assoc, List.singleton_append]

end Position

namespace Lexer

open Position Token.Integer

-- What stands between tokens: blanks, and comments up to the end of their line.
inductive Gap : List Char → Prop
  | nil : Gap []
  | blank {c cs} : Text.isBlank c → Gap cs → Gap (c :: cs)
  | comment {line cs} : '\n' ∉ line → Gap cs → Gap (';' :: line ++ '\n' :: cs)

-- After the last token, a comment may go on to the end of the text.
inductive Trail : List Char → Prop
  | closed {gap} : Gap gap → Trail gap
  | opened {gap line} : Gap gap → '\n' ∉ line → Trail (gap ++ ';' :: line)

-- What stands inside of a string, and the characters that are meant.
inductive Quoted : List Char → List Char → Prop
  | nil : Quoted [] []
  | plain {c body content} : c ≠ '"' → c ≠ '\\' → Quoted body content → Quoted (c :: body) (c :: content)
  | escape {c body content} : Quoted body content → Quoted ('\\' :: c :: body) (unescape c :: content)

-- How a token is spelled. An atom goes on for as long as it can.
inductive Lexeme : List Char → Token → (rest : List Char) → Prop
  | openParen {rest} : Lexeme ['('] .openParen rest
  | closeParen {rest} : Lexeme [')'] .closeParen rest
  | quote {rest} : Lexeme ['\''] .quote rest
  | string {body content rest} : Quoted body content →
    Lexeme ('"' :: body ++ ['"']) (.string (String.ofList content)) rest
  | atom {text token rest} : Spelling text token → Ended rest → Lexeme text token rest

-- The text after some characters consists of these tokens, which stand at their true places, and of nothing
-- else but gaps. Where it stops with a fault, what is wrong stands right after the last gap.
inductive Layout : (before rest : List Char) → Tokens → Prop
  | done {before rest} : Trail rest → Layout before rest ⟨[], none⟩
  | token {before gap text token rest ts} : Gap gap → Lexeme text token rest →
    Layout (before ++ gap ++ text) rest ts →
    Layout before (gap ++ text ++ rest) (ts.after [⟨token, behind (before ++ gap)⟩])
  | unterminatedString {before gap body content} (escape : List Char) : Gap gap → Quoted body content →
    escape = [] ∨ escape = ['\\'] →
    Layout before (gap ++ '"' :: body ++ escape) ⟨[], some (.unterminatedString (behind (before ++ gap)))⟩
  | invalidInteger {before gap text rest} : Gap gap → Misspelled text → Ended rest →
    Layout before (gap ++ text ++ rest)
      ⟨[], some (.invalidInteger (String.ofList text) (behind (before ++ gap)))⟩

-- What has been taken since the last token, where the lexer is inside of something.
inductive Inside (before : List Char) : Mode → List Char → Prop
  | gap {gap} : Gap gap → Inside before .gap gap
  | comment {gap line} : Gap gap → '\n' ∉ line → Inside before .comment (gap ++ ';' :: line)
  | string {gap body content} : Gap gap → Quoted body content.reverse →
    Inside before (.string (behind (before ++ gap)) false content) (gap ++ '"' :: body)
  | escape {gap body content} : Gap gap → Quoted body content.reverse →
    Inside before (.string (behind (before ++ gap)) true content) (gap ++ '"' :: body ++ ['\\'])
  | atom {gap spelling} : Gap gap → spelling ≠ [] → (∀ c ∈ spelling, endsAtom c = false) →
    Inside before (.atom (behind (before ++ gap)) spelling) (gap ++ spelling.reverse)

variable {before consumed gap line body content text rest cs : List Char} {p opened : Position} {c : Char}
  {token : Token} {mode : Mode} {ts : Tokens}

theorem Gap.append (h : Gap gap) (h' : Gap cs) : Gap (gap ++ cs) := by
  induction h
  case nil                => exact h'
  case blank hc _ hi      => exact .blank hc hi
  case comment hline _ hi => simpa using Gap.comment hline hi

theorem Quoted.append {body' content' : List Char} (h : Quoted body content)
    (h' : Quoted body' content') : Quoted (body ++ body') (content ++ content') := by
  induction h
  case nil              => exact h'
  case plain hc hc' _ hi => exact .plain hc hc' hi
  case escape hi        => exact .escape hi

-- The lexer follows the layout.

theorem scan_comment (h : '\n' ∉ line) :
    scan .comment p (line ++ rest) = scan .comment (p.after line) rest := by
  induction line generalizing p
  case nil => rfl
  case cons c line hi =>
    have hc : c ≠ '\n' := fun heq => h (heq ▸ .head _)
    have hstep : step .comment p c = .ok (.comment, []) := by simp [step, hc]
    rw [List.cons_append, scan_cons_of_ok hstep, hi (fun hm => h (.tail _ hm))]
    rfl

theorem scan_gap (h : Gap gap) : scan .gap p (gap ++ rest) = scan .gap (p.after gap) rest := by
  induction h generalizing p
  case nil => rfl
  case blank c cs hc _ hi =>
    have hstep : step .gap p c = .ok (.gap, []) := by simp [step, lead, hc]
    rw [List.cons_append, scan_cons_of_ok hstep, hi]
    rfl
  case comment line cs hline _ hi =>
    have hopen : step .gap p ';' = .ok (.comment, []) := rfl
    have hclose (q : Position) : step .comment q '\n' = .ok (.gap, []) := rfl
    rw [List.cons_append, List.cons_append, scan_cons_of_ok hopen, List.append_assoc, scan_comment hline,
      List.cons_append, scan_cons_of_ok (hclose _), hi]
    simp [Tokens.after]

theorem scan_trail (h : Trail rest) : scan .gap p rest = ⟨[], none⟩ := by
  cases h
  case closed h =>
    rw [← List.append_nil rest, scan_gap h]
    rfl
  case opened gap line h hline =>
    have hopen (q : Position) : step .gap q ';' = .ok (.comment, []) := rfl
    rw [scan_gap h, scan_cons_of_ok (hopen _), ← List.append_nil line, scan_comment hline]
    rfl

theorem scan_quoted {acc : List Char} (h : Quoted body content) :
    scan (.string opened false acc) p (body ++ rest) =
      scan (.string opened false (content.reverse ++ acc)) (p.after body) rest := by
  induction h generalizing p acc
  case nil => rfl
  case plain c body content hc hc' _ hi =>
    have hstep : step (.string opened false acc) p c = .ok (.string opened false (c :: acc), []) := by
      simp [step]
    rw [List.cons_append, scan_cons_of_ok hstep, hi]
    simp [Tokens.after]
  case escape c body content _ hi =>
    have hmark : step (.string opened false acc) p '\\' = .ok (.string opened true acc, []) := rfl
    have hstep (q : Position) : step (.string opened true acc) q c =
        .ok (.string opened false (unescape c :: acc), []) := rfl
    rw [List.cons_append, List.cons_append, scan_cons_of_ok hmark, scan_cons_of_ok (hstep _), hi]
    simp [Tokens.after]

theorem scan_open_string : scan .gap p ('"' :: rest) = scan (.string p false []) (p.next '"') rest :=
  rfl

theorem Lexeme.scan_eq (h : Lexeme text token rest) :
    scan .gap p (text ++ rest) = (scan .gap (p.after text) rest).after [⟨token, p⟩] := by
  cases h
  case openParen  => rfl
  case closeParen => rfl
  case quote      => rfl
  case atom h hr  => exact h.scan_eq hr
  case string body content h =>
    rw [List.append_assoc, List.cons_append, scan_open_string, scan_quoted h, List.append_nil,
      List.singleton_append, scan_cons_of_ok rfl, List.reverse_reverse]
    simp

theorem Layout.scan_eq (h : Layout before rest ts) : scan .gap (behind before) rest = ts := by
  induction h
  case done h => exact scan_trail h
  case token hgap htext _ hi =>
    rw [List.append_assoc, scan_gap hgap, htext.scan_eq, ← behind_append, ← behind_append, hi]
  case unterminatedString escape hgap hbody hescape =>
    rw [List.append_assoc, List.cons_append, scan_gap hgap, scan_open_string, scan_quoted hbody,
      ← behind_append]
    rcases hescape with rfl | rfl <;> rfl
  case invalidInteger hgap htext hr =>
    rw [List.append_assoc, scan_gap hgap, htext.scan_eq hr, ← behind_append]

-- The other way round, the lexer goes through a layout.
-- With one more character, it is somewhere in a layout again, and the tokens that it has completed
-- come before those of any layout from there on.
structure Advances (before consumed : List Char) (c : Char) (mode : Mode) (ts : List Located)
    (before' consumed' : List Char) : Prop where
  same   : before' ++ consumed' = before ++ consumed ++ [c]
  inside : Inside before' mode consumed'
  layout : ∀ rest rs, Layout before' (consumed' ++ rest) rs →
    Layout before (consumed ++ c :: rest) (rs.after ts)

theorem advances_of_inside (h : Inside before mode (consumed ++ [c])) :
    Advances before consumed c mode [] before (consumed ++ [c]) where
  same            := by simp
  inside          := h
  layout rest rs h := by simpa [Tokens.after] using h

theorem advances_of_lexeme (hgap : Gap gap) (h : ∀ rest, Lexeme text token rest)
    (hc : consumed ++ [c] = gap ++ text) :
    Advances before consumed c .gap [⟨token, behind (before ++ gap)⟩] (before ++ gap ++ text) [] where
  same   := by simp [← hc]
  inside := .gap .nil
  layout rest rs hl := by
    have hl := Layout.token hgap (h rest) hl
    rwa [← hc, List.append_assoc] at hl

theorem atom_cases {spelling : List Char} (hne : spelling ≠ [])
    (hc : ∀ c ∈ spelling, endsAtom c = false) :
    (∃ token, Spelling spelling.reverse token) ∨ Misspelled spelling.reverse := by
  replace hne : spelling.reverse ≠ [] := by simpa using hne
  replace hc : ∀ c ∈ spelling.reverse, endsAtom c = false := by simpa using hc
  by_cases hnumeric : looksNumeric spelling.reverse
  case pos =>
    cases hparse : parse? spelling.reverse
    case none       => exact .inr ⟨hne, hc, hnumeric, hparse⟩
    case some value =>
      have hatom (p : Position) : atom p spelling.reverse = .ok ⟨.integer value, p⟩ := by
        simp only [atom, hnumeric, hparse, if_true]
      exact .inl ⟨.integer value, hne, hc, hatom⟩
  case neg =>
    by_cases hnil : spelling.reverse = ['n', 'i', 'l']
    case pos => exact .inl ⟨.nil, hnil ▸ spelling_nil⟩
    case neg => exact .inl ⟨.symbol _, hne, hc, fun p => by rw [atom, if_neg hnumeric, if_neg hnil]⟩

theorem advances_lead (before : List Char) (c : Char) (hgap : Gap gap) :
    ∃ before' consumed', Advances before gap c (lead (behind (before ++ gap)) c).1
      (lead (behind (before ++ gap)) c).2 before' consumed' := by
  unfold lead
  split
  case isTrue hblank => exact ⟨_, _, advances_of_inside (.gap (hgap.append (.blank hblank .nil)))⟩
  case isFalse hblank =>
    split
    case h_1 => exact ⟨_, _, advances_of_inside (.comment hgap List.not_mem_nil)⟩
    case h_2 => exact ⟨_, _, advances_of_lexeme hgap (fun _ => .openParen) rfl⟩
    case h_3 => exact ⟨_, _, advances_of_lexeme hgap (fun _ => .closeParen) rfl⟩
    case h_4 => exact ⟨_, _, advances_of_lexeme hgap (fun _ => .quote) rfl⟩
    case h_5 => exact ⟨_, _, advances_of_inside (.string hgap .nil)⟩
    case h_6 _ hsemicolon hopen hclose hquote hstring =>
      have hc : endsAtom c = false := by simp_all [endsAtom, isDelimiter]
      exact ⟨_, _, advances_of_inside (.atom hgap (List.cons_ne_nil c []) (by simpa using hc))⟩

-- The character after an atom is taken as if nothing had been before it.
theorem advances_of_spelling (hgap : Gap gap) (h : Spelling text token) (hc : endsAtom c) :
    ∃ before' consumed', Advances before (gap ++ text) c (lead (behind (before ++ (gap ++ text))) c).1
      (⟨token, behind (before ++ gap)⟩ :: (lead (behind (before ++ (gap ++ text))) c).2)
      before' consumed' := by
  obtain ⟨before', consumed', hlead⟩ := advances_lead (before ++ (gap ++ text)) c .nil
  rw [List.append_nil] at hlead
  refine ⟨before', consumed', ?_⟩
  constructor
  case same   => simpa using hlead.same
  case inside => exact hlead.inside
  case layout =>
    intro rest rs hl
    have hended : Ended (c :: rest) := by simp [Ended, hc]
    have hl := hlead.layout rest rs hl
    rw [← List.append_assoc] at hl
    simpa using Layout.token hgap (.atom h hended) hl

theorem Inside.step {mode' : Mode} {ts : List Located} (h : Inside before mode consumed)
    (hs : step mode (behind (before ++ consumed)) c = .ok (mode', ts)) :
    ∃ before' consumed', Advances before consumed c mode' ts before' consumed' := by
  cases h
  case gap hgap =>
    have hlead := advances_lead before c hgap
    rwa [Except.ok.inj hs] at hlead
  case comment gap line hgap hline =>
    cases hs
    refine ⟨_, _, advances_of_inside ?_⟩
    split
    case isTrue hc =>
      have hclosed := Gap.comment hline .nil
      simpa [hc] using Inside.gap (hgap.append hclosed)
    case isFalse hc =>
      have hline : '\n' ∉ line ++ [c] := by simp [hline, Ne.symm hc]
      simpa using Inside.comment hgap hline
  case string gap body content hgap hbody =>
    simp only [Lexer.step] at hs
    split at hs <;> cases hs
    case h_1 => exact ⟨_, _, advances_of_lexeme hgap (fun _ => .string hbody) (by simp)⟩
    case h_2 =>
      refine ⟨_, _, advances_of_inside ?_⟩
      simpa using Inside.escape hgap hbody
    case h_3 hquote hescape =>
      have hbody : Quoted (body ++ [c]) (c :: content).reverse := by
        simpa using hbody.append (.plain hquote hescape .nil)
      refine ⟨_, _, advances_of_inside ?_⟩
      simpa using Inside.string hgap hbody
  case escape gap body content hgap hbody =>
    cases hs
    have hbody : Quoted (body ++ ['\\', c]) (unescape c :: content).reverse := by
      simpa using hbody.append (.escape .nil)
    refine ⟨_, _, advances_of_inside ?_⟩
    simpa using Inside.string hgap hbody
  case atom gap spelling hgap hne hunbroken =>
    by_cases hc : endsAtom c
    case pos =>
      simp only [Lexer.step, hc, if_true] at hs
      rcases atom_cases hne hunbroken with ⟨token, h⟩ | h
      · rw [h.atom_eq] at hs
        cases hs
        exact advances_of_spelling hgap h hc
      · rw [atom_of_misspelled h] at hs
        cases hs
    case neg =>
      simp only [Lexer.step, hc] at hs
      cases hs
      refine ⟨_, _, advances_of_inside ?_⟩
      have hunbroken : ∀ d ∈ c :: spelling, endsAtom d = false := by simpa [hc] using hunbroken
      simpa using Inside.atom hgap (List.cons_ne_nil c spelling) hunbroken

theorem Inside.layout_of_error {e : ReadError} (h : Inside before mode consumed)
    (hs : Lexer.step mode p c = .error e) : Layout before (consumed ++ c :: rest) ⟨[], some e⟩ := by
  cases h
  case gap     => cases hs
  case comment => cases hs
  case escape  => cases hs
  case string  =>
    simp only [Lexer.step] at hs
    split at hs <;> cases hs
  case atom gap spelling hgap hne hunbroken =>
    by_cases hc : endsAtom c
    case neg => simp [Lexer.step, hc] at hs
    case pos =>
      simp only [Lexer.step, hc, if_true] at hs
      rcases atom_cases hne hunbroken with ⟨token, h⟩ | h
      · rw [h.atom_eq] at hs
        cases hs
      · rw [atom_of_misspelled h] at hs
        cases hs
        exact .invalidInteger hgap h (by simp [Ended, hc])

theorem Inside.layout_finish (h : Inside before mode consumed) :
    Layout before consumed (finish mode) := by
  cases h
  case gap hgap           => exact .done (.closed hgap)
  case comment hgap hline => exact .done (.opened hgap hline)
  case escape hgap hbody  => exact .unterminatedString ['\\'] hgap hbody (.inr rfl)
  case string gap body content hgap hbody =>
    have hl : Layout before (gap ++ '"' :: body ++ []) _ := .unterminatedString [] hgap hbody (.inl rfl)
    rwa [List.append_nil] at hl
  case atom gap spelling hgap hne hunbroken =>
    have hended : Ended [] := by simp [Ended]
    rw [← List.append_nil (gap ++ spelling.reverse)]
    rcases atom_cases hne hunbroken with ⟨token, h⟩ | h
    · simp only [finish, h.atom_eq]
      exact .token hgap (.atom h hended) (.done (.closed .nil))
    · simp only [finish, atom_of_misspelled h]
      exact .invalidInteger hgap h hended

-- By induction on the text that is left.
theorem Inside.layout (h : Inside before mode consumed) (cs : List Char) :
    Layout before (consumed ++ cs) (scan mode (behind (before ++ consumed)) cs) := by
  induction cs generalizing before mode consumed
  case nil =>
    rw [List.append_nil]
    exact h.layout_finish
  case cons c cs hi =>
    cases hs : Lexer.step mode (behind (before ++ consumed)) c
    case error e =>
      simp only [scan, hs]
      exact h.layout_of_error hs
    case ok next =>
      obtain ⟨before', consumed', hadv⟩ := h.step hs
      have hl := hadv.layout cs _ (hi hadv.inside)
      rw [scan_cons_of_ok hs, next_behind]
      rwa [hadv.same] at hl

theorem layout_iff : Layout before rest ts ↔ scan .gap (behind before) rest = ts := by
  refine ⟨Layout.scan_eq, ?_⟩
  rintro rfl
  simpa using (Inside.gap .nil : Inside before .gap []).layout rest

-- The places after the first line do not depend on what it is.
theorem scan_below_line (h : '\n' ∉ line) (hr : ∀ c ∈ rest.head?, c = '\n') :
    scan .gap (behind line) rest = tokens rest := by
  cases rest
  case nil => rfl
  case cons c cs =>
    have hc : c = '\n' := hr c rfl
    have hblank : Text.isBlank '\n' := by decide
    have hstep (q : Position) : step .gap q '\n' = .ok (.gap, []) := by simp [step, lead, hblank]
    have hnext : (behind line).next '\n' = start.next '\n' := by
      simp [next, behind, start, List.count_eq_zero_of_not_mem h]
    rw [hc, tokens, scan_cons_of_ok (hstep _), scan_cons_of_ok (hstep _), hnext]

end Lexer

namespace Grammar

variable {ts : List Located} {p : Position}

theorem token_of_mem_foldl_track {opened : List Position} (h : p ∈ ts.foldl track opened) :
    p ∈ opened ∨ ∃ t ∈ ts, t.token = .openParen ∧ t.position = p := by
  induction ts generalizing opened
  case nil => exact .inl h
  case cons t ts hi =>
    rcases hi h with h | ⟨u, hu, h⟩
    · have hcases : p ∈ opened ∨ t.token = .openParen ∧ t.position = p := by
        unfold track at h
        split at h
        case h_1 ht => exact (List.mem_cons.mp h).symm.imp_right fun heq => ⟨ht, heq.symm⟩
        case h_2    => exact .inl (List.mem_of_mem_tail h)
        case h_3    => exact .inl h
      exact hcases.imp_right fun ht => ⟨t, .head _, ht⟩
    · exact .inr ⟨u, .tail _ hu, h⟩

-- Only tokens open lists.
theorem token_of_openings {outer : List Position} (h : openings ts = p :: outer) :
    ∃ t ∈ ts, t.token = .openParen ∧ t.position = p := by
  have hmem : p ∈ ts.foldl track [] := by
    unfold openings at h
    simp [h]
  exact (token_of_mem_foldl_track hmem).resolve_left List.not_mem_nil

end Grammar

-- What a fault is about: a token of its kind stands at the place that it names, or it is a fault of the
-- lexer.
inductive Tokens.Blames (ts : Tokens) : ReadError → Prop
  | unexpectedClose {t} : t ∈ ts.items → t.token = .closeParen → Blames ts (.unexpectedClose t.position)
  | unterminatedList {t} : t ∈ ts.items → t.token = .openParen → Blames ts (.unterminatedList t.position)
  | danglingQuote {t} : t ∈ ts.items → t.token = .quote → Blames ts (.danglingQuote t.position)
  | lexical {e} : ts.fault = some e → Blames ts e

theorem Grammar.FirstFault.blames {ts : Tokens} {e : ReadError} (h : FirstFault ts e) : ts.Blames e := by
  cases h
  case unexpectedClose heq _ hstray => exact .unexpectedClose (by simp [heq]) hstray.close
  case atEnd h =>
    cases h
    case lexical hfault             => exact .lexical hfault
    case danglingQuote _ heq hquote => exact .danglingQuote (by simp [heq]) hquote
    case unterminatedList _ _ ho    =>
      obtain ⟨t, ht, hopen, rfl⟩ := token_of_openings ho
      exact .unterminatedList ht hopen

theorem Reading.first_eq_error {r : Reading} {e : ReadError} (h : r.first = .error e) :
    e = .empty ∨ r.all = .error e := by
  unfold first at h
  split at h <;> cases h
  cases hf : r.fault
  case none       => exact .inl rfl
  case some fault => exact .inr (by simp [all, hf])

-- How the rest of a text is laid out after some characters, and what is reported about it.
structure Reports (before rest : List Char) (ts : Tokens) (r : Reading) : Prop where
  layout : ∀ us, Lexer.Layout before rest us ↔ us = ts
  all    : ∀ e, r.all = .error e ↔ Grammar.FirstFault ts e
  first  : ∀ e, r.first = .error e → e = .empty ∨ r.all = .error e
  blames : ∀ e, r.all = .error e → ts.Blames e

-- A first line that names an interpreter, without its end, and what is left of the text.
inductive ScriptLine : (line rest : List Char) → Prop
  | absent {rest} : ¬ ['#', '!'] <+: rest → ScriptLine [] rest
  | present {line rest} : '\n' ∉ line → (∀ c ∈ rest.head?, c = '\n') → ScriptLine ('#' :: '!' :: line) rest

theorem scriptLine_dropScriptLine (text : String) :
    ∃ line, text.toList = line ++ (dropScriptLine text).toList ∧
      ScriptLine line (dropScriptLine text).toList := by
  by_cases h : ['#', '!'] <+: text.toList
  case neg =>
    rw [ dropScriptLine_of_not_prefix h]
    exact ⟨[], rfl, .absent h⟩
  case pos =>
    obtain ⟨cs, hcs⟩ := h
    have hdrop : (dropScriptLine text).toList = cs.dropWhile (· != '\n') := by
      simp [dropScriptLine, ← hcs]
    refine ⟨'#' :: '!' :: cs.takeWhile (· != '\n'), ?_, ?_⟩
    · simp [hdrop, ← hcs]
    · rw [hdrop]
      refine .present (fun hmem => ?_) (fun c hc => ?_)
      · simpa using List.all_eq_true.mp List.all_takeWhile _ hmem
      · have hhead := List.head?_dropWhile_not (· != '\n') cs
        simp_all

theorem ScriptLine.scan_eq {line rest : List Char} (h : ScriptLine line rest) :
    Lexer.scan .gap (.behind line) rest = tokens rest := by
  cases h
  case absent        => rfl
  case present h hr  => exact Lexer.scan_below_line (by simpa using h) hr

theorem reports_of_scan {before : List Char} {text : String}
    (h : Lexer.scan .gap (.behind before) text.toList = tokens text.toList) :
    Reports before text.toList (tokens text.toList) (readText text) where
  layout us := by rw [Lexer.layout_iff, h, eq_comm]
  all _     := Reader.all_parse_eq_error_iff
  first _   := Reading.first_eq_error
  blames _ h := (Reader.all_parse_eq_error_iff.mp h).blames

-- Whatever is reported about a text, or about a script, names its place in the whole text.
theorem reports_of_text (text : String) :
    Reports [] text.toList (tokens text.toList) (readText text) ∧
    ∃ line rest, text.toList = line ++ rest ∧ ScriptLine line rest ∧
      Reports line rest (tokens rest) (readScript text) := by
  refine ⟨reports_of_scan rfl, ?_⟩
  obtain ⟨line, heq, hline⟩ := scriptLine_dropScriptLine text
  exact ⟨line, _, heq, hline, reports_of_scan hline.scan_eq⟩

end CellLisp

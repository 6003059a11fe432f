import Mathlib.Data.List.Forall2
import PoolProse.Proofs.LineByLine
import PoolProse.Proofs.LineReading
import PoolProse.Proofs.Lossless
import PoolProse.Proofs.Relocation

/-!
# One statement for each line

In a document without double rules each line that says something is one statement, and the grammar
of lines tells what it is. A rule is alone on its line, so no other line holds one.
-/
namespace PoolProse

namespace Line

/-! ## Rules are alone on their lines -/

/-- The line is made of texts, brackets and operators, or it is a single rule. -/
def Tidy (line : Line) : Prop :=
  (∀ t ∈ line, t.kind.isInside = true) ∨
    ∃ t, line = [t] ∧ (t.kind = .rule ∨ t.kind = .doubleRule)

theorem split_lineEnd {u : Token} (h : u.kind = .newline ∨ u.kind = .eof) (ts : List Token) :
    ∃ below, split (u :: ts) = [] :: below := by
  rcases h with hu | hu
  · exact ⟨split ts, split_cons_newline hu ts⟩
  · exact ⟨[], by simp only [split, hu]⟩

theorem tidy_split_scanFrom (c : Token.Context) (p : Nat) (t : Text) :
    ∃ line below, split (Token.scanFrom c p t) = line :: below ∧ (∀ l ∈ below, Tidy l) ∧
      Tidy line ∧ (c.lineStart = false → ∀ t ∈ line, t.kind.isInside = true) := by
  induction c, p, t using Token.scan_induction with
  | nil c p =>
      rw [Token.scanFrom_nil]
      exact ⟨[], [], rfl, by simp, Or.inl (by simp), by simp⟩
  | step c p k read rest hread hl hsp ih =>
      obtain ⟨line, below, hsplit, hbelow, hline, hstart⟩ := ih
      rw [Token.scanFrom_append hl]
      cases hsp with
      | continuation h => exact ⟨line, below, hsplit, hbelow, hline, hstart⟩
      | comment h hend => exact ⟨line, below, hsplit, hbelow, hline, hstart⟩
      | @rule k _ _ hk hs hend =>
          obtain ⟨u, us, hu, huk, -⟩ :=
            Token.scanFrom_lineEnd (c := c.after ⟨some k, read.length⟩ read)
              (p := p + read.length) hend
          obtain ⟨below', hbelow'⟩ := split_lineEnd huk us
          rw [hu, hbelow'] at hsplit
          obtain ⟨rfl, rfl⟩ := List.cons.inj hsplit
          refine ⟨[⟨k, read, p⟩], below', ?_, hbelow, Or.inr ⟨_, rfl, hk⟩, by simp [hs]⟩
          rw [hu]
          rcases hk with rfl | rfl <;>
            exact split_cons_inside (by simp) (by simp) hbelow'
      | newline =>
          refine ⟨[], line :: below, ?_, List.forall_mem_cons.2 ⟨hline, hbelow⟩,
            Or.inl (by simp), by simp⟩
          rw [← hsplit]
          exact split_cons_newline rfl _
      | @inside k _ _ hk =>
          have heof : k ≠ .eof := by rintro rfl; cases hk
          have hnewline : k ≠ .newline := by rintro rfl; cases hk
          have hinside : ∀ t ∈ (⟨k, read, p⟩ : Token) :: line, t.kind.isInside = true :=
            List.forall_mem_cons.2 ⟨hk, hstart (by simp [Token.Context.after, hnewline])⟩
          exact ⟨_, below, split_cons_inside heof hnewline hsplit, hbelow, Or.inl hinside,
            fun _ => hinside⟩

theorem tidy_of_mem_split {text : Text} {line : Line} (h : line ∈ split (tokenize text)) :
    line.Tidy := by
  obtain ⟨first, below, hsplit, hbelow, hfirst, -⟩ := tidy_split_scanFrom ⟨true, false⟩ 0 text
  rw [tokenize, hsplit] at h
  rcases List.mem_cons.1 h with rfl | h
  · exact hfirst
  · exact hbelow line h

theorem Tidy.suffix {line rest : Line} (h : line.Tidy) (hrest : rest <:+ line) : rest.Tidy := by
  rcases h with hin | ⟨t, rfl, hk⟩
  · exact Or.inl fun t ht => hin t (hrest.subset ht)
  · rcases List.suffix_cons_iff.1 hrest with rfl | hrest
    · exact Or.inr ⟨t, rfl, hk⟩
    · rw [List.suffix_nil.1 hrest]
      exact Or.inl (by simp)

/-- A rule with which a tidy line starts is all of it. -/
theorem Tidy.eq_nil {t : Token} {junk : Line} (h : Tidy (t :: junk))
    (hk : t.kind = .rule ∨ t.kind = .doubleRule) : junk = [] := by
  rcases h with hin | ⟨u, hu, -⟩
  · have hinside := hin t List.mem_cons_self
    rcases hk with hk | hk <;> simp [hk, Token.Kind.isInside] at hinside
  · exact (List.cons.inj hu).2

theorem split_eq_splitOnP {ts : List Token} {e : Token} (hts : ∀ t ∈ ts, t.kind ≠ .eof)
    (he : e.kind = .eof) :
    split (ts ++ [e]) = ts.splitOnP fun t => t.kind == .newline := by
  induction ts with
  | nil => simp only [List.nil_append, split, he, List.splitOnP_nil]
  | cons t ts ih =>
      obtain ⟨heof, hts⟩ := List.forall_mem_cons.1 hts
      rw [List.cons_append, List.splitOnP_cons_eq_if_modifyHead]
      by_cases hnewline : t.kind = .newline
      · rw [split_cons_newline hnewline, ih hts, if_pos (by simp [hnewline])]
      · obtain ⟨line, below, hsplit⟩ := List.exists_cons_of_ne_nil (split_ne_nil (ts ++ [e]))
        rw [split_cons_inside heof hnewline hsplit, if_neg (by simp [hnewline]), ← ih hts, hsplit]
        rfl

/-! ## Which lines say something -/

def ofText (text : Text) : List Line :=
  (tokenize text).dropLast.splitOnP fun t => t.kind == .newline

/-- Whether there is more on the line than white space, and it is not a rule. -/
def speaks (line : Line) : Bool :=
  match line.content with
  | [] => false
  | t :: _ => t.kind != .rule

theorem split_tokenize (text : Text) : split (tokenize text) = ofText text := by
  obtain ⟨ts, hts, hother⟩ := (Token.scanFrom_covers ⟨true, false⟩ 0 text).last
  have hlast : tokenize text = _ := hts
  rw [ofText, hlast, split_eq_splitOnP (fun t ht => (hother t ht).1) rfl, List.dropLast_concat]

theorem mem_of_mem_content {line : Line} {t : Token} (h : t ∈ line.content) : t ∈ line :=
  (List.dropWhile_sublist Token.isWhite).mem h

theorem statement_eq {line : Line} (h : ∀ t ∈ line, t.kind ≠ .doubleRule) :
    line.statement = if line.speaks then some (expr line.content) else none := by
  rcases hcontent : line.content with _ | ⟨t, ts⟩
  · simp [statement, Statement.next, shape, speaks, hcontent]
  · have ht : t.kind ≠ .doubleRule := h t (mem_of_mem_content (by simp [hcontent]))
    by_cases hrule : t.kind = .rule
    · simp [statement, Statement.next, shape, speaks, hcontent, hrule]
    · have hnil : Untitled [] := trivial
      have hshape : shape line [] = .text (t :: ts) := by
        simp only [shape, hcontent]
        exact shapeOfText_untitled hnil t ts
      simp [statement, Statement.next, hshape, speaks, hcontent, hrule]

theorem ofTokens_eq_map {text : Text} (h : ∀ t ∈ tokenize text, t.kind ≠ .doubleRule) :
    Statement.ofTokens (tokenize text) =
      (((ofText text).filter speaks).map content).map expr := by
  have hlines : ∀ line ∈ ofText text, ∀ t ∈ line, t.kind ≠ .doubleRule := by
    intro line hline t ht
    rw [← split_tokenize] at hline
    exact h t (mem_of_mem_split hline ht)
  have hnil : Untitled [] := trivial
  have happend := Statement.ofLines_append hlines hnil
  rw [List.append_nil, Statement.ofLines, List.append_nil] at happend
  rw [Statement.ofTokens, split_tokenize, happend,
    List.filterMap_congr fun line hline => statement_eq (hlines line hline),
    ← List.filterMap_eq_filter, List.map_map, List.map_filterMap]
  congr 1
  funext line
  by_cases hspeaks : line.speaks = true <;> simp [Option.guard, hspeaks]

theorem content_inside {text : Text} (h : ∀ t ∈ tokenize text, t.kind ≠ .doubleRule)
    {line : Line} (hline : line ∈ ofText text) (hspeaks : line.speaks = true) :
    (∀ t ∈ line.content, t.kind.isInside = true) ∧ ∀ t ∈ line.content, t.text ≠ [] := by
  rw [← split_tokenize] at hline
  have hinside : ∀ t ∈ line, t.kind.isInside = true := by
    rcases tidy_of_mem_split hline with hinside | ⟨t, rfl, hk⟩
    · exact hinside
    · rcases hk with hk | hk
      · have hcontent : content [t] = [t] := by simp [content, Token.isWhite, hk]
        simp [speaks, hcontent, hk] at hspeaks
      · exact absurd hk (h t (mem_of_mem_split hline List.mem_cons_self))
  refine ⟨fun t ht => hinside t (mem_of_mem_content ht), ?_⟩
  intro t ht
  have hmem := mem_of_mem_split hline (mem_of_mem_content ht)
  obtain ⟨ts, hts, hother⟩ := (Token.scanFrom_covers ⟨true, false⟩ 0 text).last
  rw [tokenize, hts] at hmem
  rcases List.mem_append.1 hmem with hmem | hmem
  · exact (hother t hmem).2
  · obtain rfl := List.mem_singleton.1 hmem
    cases hinside _ (mem_of_mem_content ht)

end Line

/-! ## Where an issue points -/

namespace Line

theorem mem_restack {stack : List Token} {t u : Token} (h : u ∈ restack stack t) :
    u = t ∨ u ∈ stack := by
  unfold restack at h
  split at h
  · exact List.mem_cons.1 h
  · exact Or.inr (List.mem_of_mem_tail h)
  · exact Or.inr h

theorem verdict_mem {items : Bool} {stack ts : List Token} {e : SyntaxError}
    (h : verdict items stack ts = some e) : e.token ∈ stack ∨ e.token ∈ ts := by
  induction ts generalizing stack with
  | nil =>
      obtain ⟨o, ho, rfl⟩ := Option.map_eq_some_iff.1 h
      exact Or.inl (List.mem_of_mem_head? ho)
  | cons t ts ih =>
      rw [verdict] at h
      split at h
      · obtain rfl := Option.some.inj h
        exact Or.inr List.mem_cons_self
      · rcases ih h with hmem | hmem
        · rcases mem_restack hmem with heq | hmem
          · exact Or.inr (List.mem_cons.2 (Or.inl heq))
          · exact Or.inl hmem
        · exact Or.inr (List.mem_cons_of_mem t hmem)

theorem Reads.error_mem {line : Line} {e : SyntaxError} (h : Reads line (.error e)) :
    e.token ∈ line := by
  cases h with
  | badBinding h hrest =>
      rcases verdict_mem hrest with hmem | hmem
      · cases hmem
      · exact h.mem hmem
  | badText h htext =>
      rcases verdict_mem htext with hmem | hmem
      · cases hmem
      · exact hmem

end Line

namespace Document

theorem indexOf_mem {ts : List Token} {t : Token} (h : t ∈ ts)
    (hts : ts.Pairwise fun t u => t.offset < u.offset ∧ t.stop ≤ u.offset) :
    ts[indexOf ts t]? = some t := by
  induction ts with
  | nil => cases h
  | cons u us ih =>
      obtain ⟨hu, hus⟩ := List.pairwise_cons.1 hts
      rcases List.mem_cons.1 h with rfl | h
      · simp [indexOf, List.findIdx_cons]
      · have hne : (u.offset == t.offset) = false := beq_false_of_ne (Int.ne_of_lt (hu t h).1)
        have hindex : indexOf (u :: us) t = indexOf us t + 1 := by
          simp [indexOf, List.findIdx_cons, hne]
        rw [hindex, List.getElem?_cons_succ, ih h hus]

theorem locate_error [Locator] {file source : Text} {ts : List Token} {e : SyntaxError}
    {i : SyntaxIssue} (h : locate file source ts e = .ok i) : i.error = e := by
  unfold locate at h
  split at h
  · cases h
  · obtain rfl := Except.ok.inj h
    rfl

theorem locate_of_mem_issues [Locator] {file source : Text} {ts : List Token} {sts : List Statement}
    {d : Document} (h : locateAll file source ts sts = .ok d) {i : SyntaxIssue}
    (hi : i ∈ d.issues) : locate file source ts i.error = .ok i := by
  induction sts generalizing d with
  | nil =>
      obtain rfl := Except.ok.inj h
      cases hi
  | cons s sts ih =>
      cases s with
      | ok e =>
          simp only [locateAll] at h
          split at h
          case h_1 => cases h
          case h_2 rest hrest =>
            obtain rfl := Except.ok.inj h
            exact ih hrest hi
      | error e =>
          simp only [locateAll] at h
          split at h
          case h_1 => cases h
          case h_2 j hj =>
            split at h
            case h_1 => cases h
            case h_2 rest hrest =>
              obtain rfl := Except.ok.inj h
              rcases List.mem_cons.1 hi with rfl | hi
              · rwa [locate_error hj]
              · exact ih hrest hi

end Document

/-- The issue blames a token of the text, by its number among the tokens and by its place. -/
structure SyntaxIssue.Blames [Locator] (file text : Text) (i : SyntaxIssue) : Prop where
  index : (tokenize text)[i.index]? = some i.error.token
  place : ∃ p, Locator.position text i.error.token.offset = .ok p ∧
    i.location = ⟨file, p.line, p.column⟩

theorem SyntaxIssue.blames_of_locate [Locator] {file text : Text} {i : SyntaxIssue}
    (h : Document.locate file text (tokenize text) i.error = .ok i)
    (hmem : i.error.token ∈ tokenize text) : i.Blames file text := by
  have hordered := (Token.scanFrom_covers ⟨true, false⟩ 0 text).ordered
  have hindex := Document.indexOf_mem hmem hordered
  unfold Document.locate at h
  split at h
  case h_1 => cases h
  case h_2 p hp =>
    have hi := Except.ok.inj h
    refine ⟨?_, p, hp, ?_⟩
    · rw [← hindex, ← hi]
    · rw [← hi]

/-! ## Reading a document -/

namespace Document

theorem map_expr_eq_iff {lines : List Line} (h : ∀ line ∈ lines, ∀ s, line.Reads s ↔ line.expr = s)
    (sts : List Statement) : lines.map Line.expr = sts ↔ List.Forall₂ Line.Reads lines sts := by
  induction lines generalizing sts with
  | nil => simp [eq_comm]
  | cons line lines ih =>
      obtain ⟨hline, hlines⟩ := List.forall_mem_cons.1 h
      rw [List.map_cons, List.forall₂_cons_left_iff]
      constructor
      · rintro rfl
        exact ⟨_, _, (hline _).2 rfl, (ih hlines _).1 rfl, rfl⟩
      · rintro ⟨s, sts, hs, hsts, rfl⟩
        rw [(hline s).1 hs, (ih hlines sts).2 hsts]

theorem statements_of_locateAll [Locator] {file source : Text} {ts : List Token}
    {sts : List Statement} {d : Document} (h : locateAll file source ts sts = .ok d) :
    d.statements = sts := by
  induction sts generalizing d with
  | nil =>
      obtain rfl := Except.ok.inj h
      rfl
  | cons s sts ih =>
      cases s with
      | ok e =>
          simp only [locateAll] at h
          split at h
          case h_1 => cases h
          case h_2 rest hrest =>
            obtain rfl := Except.ok.inj h
            rw [← ih hrest]
            rfl
      | error e =>
          simp only [locateAll] at h
          split at h
          case h_1 => cases h
          case h_2 i hi =>
            split at h
            case h_1 => cases h
            case h_2 rest hrest =>
              obtain rfl := Except.ok.inj h
              rw [← ih hrest, ← locate_error hi]
              rfl

theorem error_mem_statements {d : Document} {i : SyntaxIssue} (h : i ∈ d.issues) :
    .error i.error ∈ d.statements := by
  have hmem := List.mem_map_of_mem (f := SyntaxIssue.error) h
  rw [issues_map_error] at hmem
  obtain ⟨s, hs, herror⟩ := List.mem_filterMap.1 hmem
  cases s with
  | ok e => cases herror
  | error e => rwa [← Option.some.inj herror]

/-- A text without double rules is read line by line. There is one statement for each line that
speaks, it is what the grammar says of that line alone, and nothing else is a reading of these
lines. -/
theorem parse_line_by_line [Locator] (file : Text) {text : Text}
    (hrule : ∀ t ∈ tokenize text, t.kind ≠ .doubleRule) (hlocated : Locatable text) :
    ∃ d, parse file text = .ok d ∧
      (∀ sts, d.statements = sts ↔
        List.Forall₂ Line.Reads (((Line.ofText text).filter Line.speaks).map Line.content) sts) ∧
      ∀ i ∈ d.issues, i.Blames file text := by
  obtain ⟨d, hd, hstatements⟩ := parse_locatable file hlocated
  rw [Line.ofTokens_eq_map hrule] at hstatements
  have hreads : ∀ line ∈ ((Line.ofText text).filter Line.speaks).map Line.content,
      ∀ s, line.Reads s ↔ line.expr = s := by
    intro content hcontent
    obtain ⟨line, hline, rfl⟩ := List.mem_map.1 hcontent
    obtain ⟨hline, hspeaks⟩ := List.mem_filter.1 hline
    obtain ⟨hinside, htext⟩ := Line.content_inside hrule hline hspeaks
    exact Line.reads_iff hinside htext
  refine ⟨d, hd, ?_, ?_⟩
  · intro sts
    rw [hstatements]
    exact map_expr_eq_iff hreads sts
  · intro i hi
    apply SyntaxIssue.blames_of_locate (locate_of_mem_issues hd hi)
    have hmem := error_mem_statements hi
    rw [hstatements] at hmem
    obtain ⟨content, hcontent, hexpr⟩ := List.mem_map.1 hmem
    have htoken := ((hreads content hcontent _).2 hexpr).error_mem
    obtain ⟨line, hline, rfl⟩ := List.mem_map.1 hcontent
    have hline := (List.mem_filter.1 hline).1
    rw [← Line.split_tokenize] at hline
    exact Line.mem_of_mem_split hline (Line.mem_of_mem_content htoken)

theorem parse_line_by_line_pet :
    (∀ t ∈ tokenize (utf8 "pet :: cat | a (dog)\n---\nA (pet\n \n"), t.kind ≠ .doubleRule) ∧
    Locatable (utf8 "pet :: cat | a (dog)\n---\nA (pet\n \n") ∧
    ∃ d, parse [] (utf8 "pet :: cat | a (dog)\n---\nA (pet\n \n") = .ok d ∧
      d.statements = [.ok (.bind .define (utf8 "pet")
          [.lit (utf8 "cat"), .mix (.lit (utf8 "a ")) (.ref (.lit (utf8 "dog")))]),
        .error ⟨.unmatchedGroup, ⟨.opening .paren, utf8 "(", 27⟩⟩] ∧
      d.issues.map SyntaxIssue.location = [⟨[], 3, 3⟩] ∧
      List.Forall₂ Line.Reads
        (((Line.ofText (utf8 "pet :: cat | a (dog)\n---\nA (pet\n \n")).filter Line.speaks).map
          Line.content) d.statements ∧
      ∀ i ∈ d.issues, i.Blames [] (utf8 "pet :: cat | a (dog)\n---\nA (pet\n \n") := by
  have hrule : ∀ t ∈ tokenize (utf8 "pet :: cat | a (dog)\n---\nA (pet\n \n"),
      t.kind ≠ .doubleRule := by decide +kernel
  have hlocated : Locatable (utf8 "pet :: cat | a (dog)\n---\nA (pet\n \n") := by decide +kernel
  obtain ⟨d, hd, hstatements, hissues⟩ := parse_line_by_line [] hrule hlocated
  have hparse : parse [] (utf8 "pet :: cat | a (dog)\n---\nA (pet\n \n") =
      .ok [.ok (.bind .define (utf8 "pet")
          [.lit (utf8 "cat"), .mix (.lit (utf8 "a ")) (.ref (.lit (utf8 "dog")))]),
        .error ⟨⟨.unmatchedGroup, ⟨.opening .paren, utf8 "(", 27⟩⟩, 14, ⟨[], 3, 3⟩⟩] := by
    decide +kernel
  obtain rfl := Except.ok.inj (hd.symm.trans hparse)
  exact ⟨hrule, hlocated, _, hd, rfl, rfl, (hstatements _).1 rfl, hissues⟩

end Document

end PoolProse

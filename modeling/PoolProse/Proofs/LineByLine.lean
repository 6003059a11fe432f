import PoolProse.Statement

/-!
# Reading line by line

Only a double rule makes a statement of more than one line. Where no line below starts with one,
each line is read by itself.
-/
namespace PoolProse

namespace Line

/-! ## Lines of tokens -/

theorem split_ne_nil (ts : List Token) : split ts ≠ [] := by
  cases ts with
  | nil => simp [split]
  | cons t ts =>
      rw [split]
      split
      · simp
      · simp
      · split <;> simp

theorem split_cons_newline {n : Token} (hn : n.kind = .newline) (ts : List Token) :
    split (n :: ts) = [] :: split ts := by
  simp only [split, hn]

theorem split_cons_inside {t : Token} (heof : t.kind ≠ .eof) (hnewline : t.kind ≠ .newline)
    {ts : List Token} {line : Line} {below : List Line} (h : split ts = line :: below) :
    split (t :: ts) = (t :: line) :: below := by
  rw [split]
  split
  · contradiction
  · contradiction
  · rw [h]

theorem split_append_newline {ts : List Token} {n : Token} (us : List Token)
    (hts : ∀ t ∈ ts, t.kind ≠ .eof) (hn : n.kind = .newline) :
    split (ts ++ n :: us) = split ts ++ split us := by
  induction ts with
  | nil => exact split_cons_newline hn us
  | cons t ts ih =>
      obtain ⟨heof, hts⟩ := List.forall_mem_cons.1 hts
      rw [List.cons_append]
      by_cases ht : t.kind = .newline
      · rw [split_cons_newline ht, split_cons_newline ht, ih hts, List.cons_append]
      · obtain ⟨line, below, hsplit⟩ := List.exists_cons_of_ne_nil (split_ne_nil ts)
        have hcat : split (ts ++ n :: us) = line :: (below ++ split us) := by
          rw [ih hts, hsplit, List.cons_append]
        rw [split_cons_inside heof ht hsplit, split_cons_inside heof ht hcat, List.cons_append]

theorem mem_of_mem_split {ts : List Token} {line : Line} {t : Token} (hline : line ∈ split ts)
    (ht : t ∈ line) : t ∈ ts := by
  induction ts generalizing line with
  | nil =>
      rw [split, List.mem_singleton] at hline
      rw [hline] at ht
      cases ht
  | cons u us ih =>
      by_cases heof : u.kind = .eof
      · simp only [split, heof, List.mem_singleton] at hline
        rw [hline] at ht
        cases ht
      by_cases hnewline : u.kind = .newline
      · rw [split_cons_newline hnewline] at hline
        rcases List.mem_cons.1 hline with rfl | hline
        · cases ht
        · exact List.mem_cons_of_mem _ (ih hline ht)
      obtain ⟨first, below, hsplit⟩ := List.exists_cons_of_ne_nil (split_ne_nil us)
      rw [split_cons_inside heof hnewline hsplit] at hline
      rw [hsplit] at ih
      rcases List.mem_cons.1 hline with rfl | hline
      · rcases List.mem_cons.1 ht with rfl | ht
        · exact List.mem_cons_self
        · exact List.mem_cons_of_mem _ (ih List.mem_cons_self ht)
      · exact List.mem_cons_of_mem _ (ih (List.mem_cons_of_mem _ hline) ht)

/-! ## Lines without a double rule below -/

/-- The first of the lines does not start with a double rule. -/
def Untitled : List Line → Prop
  | (t :: _) :: _ => t.kind ≠ .doubleRule
  | _ => True

theorem untitled_split {ts : List Token} (h : ∀ t ∈ ts.head?, t.kind ≠ .doubleRule) :
    Untitled (split ts) := by
  cases ts with
  | nil => trivial
  | cons t ts =>
      by_cases heof : t.kind = .eof
      · simp only [split, heof]
        trivial
      by_cases hnewline : t.kind = .newline
      · rw [split_cons_newline hnewline]
        trivial
      obtain ⟨line, below, hsplit⟩ := List.exists_cons_of_ne_nil (split_ne_nil ts)
      rw [split_cons_inside heof hnewline hsplit]
      exact h t rfl

theorem shapeOfText_untitled {below : List Line} (h : Untitled below) (t : Token) (ts : Line) :
    shapeOfText t ts below = .text (t :: ts) := by
  unfold shapeOfText
  split
  · rfl
  · split
    case h_1 u junk body =>
      have hu : (u.kind == .doubleRule) = false := beq_false_of_ne h
      rw [hu, Bool.and_false]
      rfl
    case h_2 => rfl

theorem shape_untitled {below : List Line} (h : Untitled below) (line : Line) :
    shape line below = shape line [] := by
  have hnil : Untitled [] := trivial
  unfold shape
  split
  · rfl
  · rw [shapeOfText_untitled h, shapeOfText_untitled hnil]

def statement (line : Line) : Option Statement := (Statement.next line []).1

end Line

namespace Statement

open Line (shape Untitled)

theorem next_untitled {below : List Line} (h : Untitled below) (line : Line) :
    next line below = (line.statement, below) := by
  have htitle : ∀ t name junk body, shape line [] ≠ .title t name junk body := by
    intro t name junk body
    have hnil : Untitled [] := trivial
    unfold shape
    split
    · simp
    · split
      · simp
      · simp
      · simp [Line.shapeOfText_untitled hnil]
  simp only [Line.statement, next, Line.shape_untitled h]
  cases hs : shape line [] with
  | title t name junk body => exact absurd hs (htitle t name junk body)
  | _ => rfl

/-- Lines without a double rule are read one by one, whatever comes below them. -/
theorem ofLines_append {lines below : List Line}
    (hlines : ∀ line ∈ lines, ∀ t ∈ line, t.kind ≠ .doubleRule) (hbelow : Untitled below) :
    ofLines (lines ++ below) = lines.filterMap Line.statement ++ ofLines below := by
  induction lines with
  | nil => rfl
  | cons line lines ih =>
      obtain ⟨-, hlines⟩ := List.forall_mem_cons.1 hlines
      have hnext : Untitled (lines ++ below) := by
        match lines with
        | [] => exact hbelow
        | [] :: _ => trivial
        | (t :: ts) :: _ => exact hlines (t :: ts) List.mem_cons_self t List.mem_cons_self
      rw [List.cons_append, ofLines, next_untitled hnext, ih hlines, ← List.append_assoc]
      cases hs : line.statement with
      | none => rw [List.filterMap_cons_none hs]; rfl
      | some s => rw [List.filterMap_cons_some hs]; rfl

theorem ofTokens_append_newline {ts us : List Token} {n : Token} (hts : ∀ t ∈ ts, t.kind ≠ .eof)
    (hn : n.kind = .newline) (hrule : ∀ t ∈ ts, t.kind ≠ .doubleRule)
    (hus : ∀ t ∈ us.head?, t.kind ≠ .doubleRule) :
    ofTokens (ts ++ n :: us) = (Line.split ts).filterMap Line.statement ++ ofTokens us := by
  rw [ofTokens, Line.split_append_newline us hts hn]
  apply ofLines_append
  · intro line hline t ht
    exact hrule t (Line.mem_of_mem_split hline ht)
  · exact Line.untitled_split hus

end Statement

end PoolProse

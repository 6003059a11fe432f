import PoolProse.Text.Cursor
import PoolProse.Proofs.Locating

/-!
# Reading with a cursor

A cursor is a place between two code points of its text: reading takes the first code point off
those that are left, and a look ahead counts into them. Going back to a mark does not change this,
so whatever was done with a cursor before, the text since an earlier place is spelled by the code
points that were read since then and not put back.
-/
namespace PoolProse

/-! ## The code points of a text -/

namespace CodePoint

theorem bytes_ofLead_ne_nil (a : UInt8) (rest : Text) : (ofLead a rest).bytes ≠ [] := by
  rcases ofLead_cases a rest with ⟨-, h⟩ | h | h
  · simp [h]
  · simp [h, stray]
  · exact h.bytes_ne_nil

theorem size_ofLead_pos (a : UInt8) (rest : Text) : 0 < (ofLead a rest).size :=
  List.length_pos_of_ne_nil (bytes_ofLead_ne_nil a rest)

theorem bytes_append_drop (a : UInt8) (rest : Text) :
    (ofLead a rest).bytes ++ (a :: rest).drop (ofLead a rest).size = a :: rest :=
  List.prefix_iff_eq_append.1 <| ofLead_prefix a rest

end CodePoint

namespace Text

open CodePoint (ofLead)

theorem codePointsFrom_eq (skip : Nat) (t : Text) :
    codePointsFrom skip t = codePoints (t.drop skip) := by
  induction skip generalizing t with
  | zero => rfl
  | succ skip ih =>
      cases t with
      | nil => rfl
      | cons a t => exact ih t

theorem codePoints_cons (a : UInt8) (t : Text) :
    codePoints (a :: t) = ofLead a t :: codePoints ((a :: t).drop (ofLead a t).size) := by
  obtain ⟨n, hn⟩ := Nat.exists_eq_add_one.2 (CodePoint.size_ofLead_pos a t)
  rw [codePoints, codePointsFrom, codePointsFrom_eq, hn, List.drop_succ_cons, Nat.add_sub_cancel]

theorem ofCodePoints_codePoints (t : Text) : ofCodePoints t.codePoints = t := by
  induction hn : t.length using Nat.strongRecOn generalizing t with
  | ind n ih =>
      cases t with
      | nil => rfl
      | cons a t =>
          have hpos := CodePoint.size_ofLead_pos a t
          have hrest := ih _ (by rw [← hn, List.length_drop, List.length_cons]; omega)
            ((a :: t).drop (ofLead a t).size) rfl
          rw [codePoints_cons, ofCodePoints, List.flatMap_cons]
          exact (congrArg _ hrest).trans (CodePoint.bytes_append_drop a t)

theorem ofCodePoints_append (rs ss : List CodePoint) :
    ofCodePoints (rs ++ ss) = ofCodePoints rs ++ ofCodePoints ss :=
  List.flatMap_append

/-- The places between two code points of a text, its two ends among them. -/
def IsBoundary (t : Text) (p : Nat) : Prop :=
  ∃ n, p = (ofCodePoints (t.codePoints.take n)).length

end Text

/-! ## What a cursor has left to read -/

namespace Cursor

open Text (ofCodePoints)

variable (c : Cursor)

def unread : List CodePoint := c.rest.codePoints

theorem first?_rest : CodePoint.first? c.rest = c.unread.head? := by
  rw [unread]
  cases c.rest with
  | nil => rfl
  | cons a t => rw [Text.codePoints_cons]; rfl

theorem next_of_unread_nil {c : Cursor} (h : c.unread = []) : c.next = (0, c) := by
  rw [next, first?_rest, h]
  rfl

theorem next_of_unread_cons {c : Cursor} {r : CodePoint} {rs : List CodePoint}
    (h : c.unread = r :: rs) :
    c.next = (r.code, { c with pos := c.pos + r.size, last := r.code }) := by
  rw [next, first?_rest, h]
  rfl

theorem next_fst : c.next.1 = (c.unread.head?.map CodePoint.code).getD 0 := by
  cases h : c.unread with
  | nil => rw [next_of_unread_nil h]; rfl
  | cons r rs => rw [next_of_unread_cons h]; rfl

theorem unread_next : c.next.2.unread = c.unread.tail := by
  cases h : c.unread with
  | nil => rw [next_of_unread_nil h, h, List.tail_nil]
  | cons r rs =>
      rw [next_of_unread_cons h, List.tail_cons, unread, rest, ← List.drop_drop]
      rw [unread, rest] at h
      generalize c.source.drop c.pos = t at h ⊢
      cases t with
      | nil => cases h
      | cons a t =>
          obtain ⟨rfl, rfl⟩ := List.cons.inj ((Text.codePoints_cons a t).symm.trans h)
          rfl

theorem source_skip (n : Nat) : (c.skip n).source = c.source := by
  induction n generalizing c with
  | zero => rfl
  | succ n ih =>
      rw [skip, ih]
      cases h : c.unread with
      | nil => rw [next_of_unread_nil h]
      | cons r rs => rw [next_of_unread_cons h]

theorem unread_skip (n : Nat) : (c.skip n).unread = c.unread.drop n := by
  induction n generalizing c with
  | zero => rfl
  | succ n ih => rw [skip, ih, unread_next, List.drop_tail]

theorem pos_skip (n : Nat) :
    (c.skip n).pos = c.pos + (ofCodePoints (c.unread.take n)).length := by
  induction n generalizing c with
  | zero => rfl
  | succ n ih =>
      rw [skip, ih, unread_next]
      cases h : c.unread with
      | nil => simp [next_of_unread_nil h]
      | cons r rs =>
          rw [next_of_unread_cons h, List.tail_cons, List.take_succ_cons, ofCodePoints,
            ofCodePoints, List.flatMap_cons, List.length_append, ← Nat.add_assoc]
          rfl

theorem codeAhead_eq (n : Nat) (t : Text) :
    codeAhead n t = (t.codePoints[n]?.map CodePoint.code).getD 0 := by
  induction n generalizing t with
  | zero =>
      cases t with
      | nil => rfl
      | cons a t => rw [Text.codePoints_cons]; rfl
  | succ n ih =>
      cases t with
      | nil => rfl
      | cons a t => rw [Text.codePoints_cons, List.getElem?_cons_succ, ← ih]; rfl

theorem peekAt_eq_next (n : Nat) : c.peekAt n = (c.skip n).next.1 := by
  rw [peekAt, codeAhead_eq, next_fst, unread_skip, List.head?_drop]
  rfl

theorem atEnd_iff : c.atEnd = true ↔ c.rest = [] := by
  rw [atEnd, decide_eq_true_iff, rest, List.drop_eq_nil_iff]

/-- Reading moves a cursor unless it is at the end. -/
theorem atEnd_iff_pos_next : c.atEnd = true ↔ c.next.2.pos = c.pos := by
  rw [atEnd_iff, next]
  cases c.rest with
  | nil => simp [CodePoint.first?]
  | cons a t =>
      have hpos := CodePoint.size_ofLead_pos a t
      simp only [CodePoint.first?, reduceCtorEq, false_iff]
      omega

theorem since?_natCast (p : Nat) :
    c.since? p = if p ≤ c.pos then some ((c.source.take c.pos).drop p) else none :=
  rfl

/-! ## Marks and going back -/

/-- What is done with a cursor. Marks are numbered in the order in which they are set. -/
inductive Act where
  | next
  | skip (n : Nat)
  | mark
  | reset (k : Nat)
  deriving DecidableEq, Repr

def taken (c : Cursor) : Nat → List CodePoint
  | 0 => []
  | n + 1 => (CodePoint.first? c.rest).toList ++ c.next.2.taken n

theorem taken_eq (n : Nat) : c.taken n = c.unread.take n := by
  induction n generalizing c with
  | zero => rfl
  | succ n ih =>
      rw [taken, ih, unread_next, first?_rest]
      cases c.unread <;> simp

/-- A cursor in use, with the code points that it read and that were not put back. Beside each mark
stands what had been read when it was set. -/
structure Trail where
  cursor : Cursor
  read : List CodePoint := []
  marks : List (Mark × List CodePoint) := []
  deriving DecidableEq, Repr

namespace Trail

def start (source : Text) : Trail := { cursor := Cursor.start source }

/-- What is done has no result only where a mark is asked for that was not set. -/
def act (u : Trail) : Act → Option Trail
  | .next => some { u with
      cursor := u.cursor.next.2
      read := u.read ++ (CodePoint.first? u.cursor.rest).toList }
  | .skip n => some { u with cursor := u.cursor.skip n, read := u.read ++ u.cursor.taken n }
  | .mark => some { u with marks := u.marks ++ [(u.cursor.mark, u.read)] }
  | .reset k =>
    u.marks[k]?.map fun (mark, read) => { u with cursor := u.cursor.reset mark, read }

def run (u : Trail) (acts : List Act) : Option Trail := acts.foldlM act u

variable {u v w : Trail}

theorem act_next (u : Trail) : u.act .next = u.act (.skip 1) := by
  simp [act, skip, taken]

theorem run_append (u : Trail) (before after : List Act) :
    u.run (before ++ after) = (u.run before).bind (·.run after) := by
  rw [run, List.foldlM_append]
  rfl

/-- What every single act keeps is kept by a run of them. -/
theorem run_keeps (P : Trail → Prop) (allowed : Act → Prop)
    (step : ∀ {u v a}, allowed a → P u → u.act a = some v → P v) {acts : List Act}
    (hacts : ∀ a ∈ acts, allowed a) (hu : P u) (h : u.run acts = some v) : P v := by
  induction acts generalizing u with
  | nil =>
      obtain rfl := Option.some.inj h
      exact hu
  | cons a acts ih =>
      obtain ⟨ha, hacts⟩ := List.forall_mem_cons.1 hacts
      rw [run, List.foldlM_cons] at h
      obtain ⟨w, hw, h⟩ := Option.bind_eq_some_iff.1 h
      exact ih hacts (step ha hu hw) h

/-! ### Where a cursor stands -/

/-- After `read`, the rest of the text starts at `pos`. -/
structure StandsAt (source : Text) (read : List CodePoint) (pos : Nat) : Prop where
  codePoints : source.codePoints = read ++ Text.codePoints (source.drop pos)
  pos_eq : pos = (ofCodePoints read).length

namespace StandsAt

variable {source : Text} {read since : List CodePoint} {p q : Nat}

theorem isBoundary (h : StandsAt source read p) : source.IsBoundary p :=
  ⟨read.length, by rw [h.codePoints, List.take_left' rfl, h.pos_eq]⟩

theorem source_eq (h : StandsAt source read p) :
    source = ofCodePoints read ++ ofCodePoints (Text.codePoints (source.drop p)) := by
  rw [← Text.ofCodePoints_append, ← h.codePoints, Text.ofCodePoints_codePoints]

theorem le_length (h : StandsAt source read p) : p ≤ source.length := by
  have hlength := congrArg List.length h.source_eq
  rw [List.length_append, ← h.pos_eq] at hlength
  omega

theorem slice (h : StandsAt source read p) (h' : StandsAt source (read ++ since) q) :
    p ≤ q ∧ (source.take q).drop p = ofCodePoints since := by
  have hq := h'.pos_eq
  rw [Text.ofCodePoints_append, List.length_append, ← h.pos_eq] at hq
  refine ⟨by omega, ?_⟩
  rw [h'.source_eq, List.take_left' h'.pos_eq.symm, Text.ofCodePoints_append,
    List.drop_left' h.pos_eq.symm]

end StandsAt

/-- The cursor and all marks stand where what was read ends. -/
structure Sound (source : Text) (u : Trail) : Prop where
  source_eq : u.cursor.source = source
  here : StandsAt source u.read u.cursor.pos
  marked : ∀ x ∈ u.marks, StandsAt source x.2 x.1.pos

variable {source : Text}

theorem sound_start (source : Text) : Sound source (start source) where
  source_eq := rfl
  here := ⟨rfl, rfl⟩
  marked := by simp [start]

theorem Sound.skip (h : Sound source u) (n : Nat) :
    StandsAt source (u.read ++ u.cursor.taken n) (u.cursor.skip n).pos := by
  have hunread : u.cursor.unread = Text.codePoints (source.drop u.cursor.pos) := by
    rw [unread, rest, h.source_eq]
  have hrest : Text.codePoints (source.drop (u.cursor.skip n).pos) = u.cursor.unread.drop n := by
    rw [← unread_skip, unread, rest, source_skip, h.source_eq]
  constructor
  · rw [hrest, taken_eq, List.append_assoc, List.take_append_drop, hunread]
    exact h.here.codePoints
  · rw [pos_skip, taken_eq, Text.ofCodePoints_append, List.length_append, ← h.here.pos_eq]

theorem Sound.act {a : Act} (h : Sound source u) (hact : u.act a = some v) : Sound source v := by
  have hskip : ∀ {n}, u.act (.skip n) = some v → Sound source v := by
    intro n hact
    obtain rfl := Option.some.inj hact
    exact ⟨(source_skip _ n).trans h.source_eq, h.skip n, h.marked⟩
  cases a with
  | next => exact hskip (u.act_next ▸ hact)
  | skip n => exact hskip hact
  | mark =>
      obtain rfl := Option.some.inj hact
      refine ⟨h.source_eq, h.here, fun x hx => ?_⟩
      rcases List.mem_append.1 hx with hx | hx
      · exact h.marked x hx
      · obtain rfl := List.mem_singleton.1 hx
        exact h.here
  | reset k =>
      obtain ⟨x, hx, rfl⟩ := Option.map_eq_some_iff.1 hact
      exact ⟨h.source_eq, h.marked x (List.mem_of_getElem? hx), h.marked⟩

theorem sound_of_run {acts : List Act} (h : (start source).run acts = some u) : Sound source u :=
  run_keeps (Sound source) (fun _ => True) (fun _ hu hact => hu.act hact) (fun _ _ => trivial)
    (sound_start source) h

/-! ### What was not put back -/

/-- What `u` had read is still read in `v` and at every mark set since. -/
structure Extends (u v : Trail) : Prop where
  kept : u.read <+: v.read
  marks_length : u.marks.length ≤ v.marks.length
  marked : ∀ {k x}, u.marks.length ≤ k → v.marks[k]? = some x → u.read <+: x.2

theorem extends_refl (u : Trail) : Extends u u where
  kept := List.prefix_rfl
  marks_length := Nat.le_refl _
  marked hk hx := by
    rw [List.getElem?_eq_none hk] at hx
    cases hx

theorem Extends.act {a : Act} (ha : ∀ k, a = .reset k → u.marks.length ≤ k) (h : Extends u v)
    (hact : v.act a = some w) : Extends u w := by
  have hskip : ∀ {n}, v.act (.skip n) = some w → Extends u w := by
    intro n hact
    obtain rfl := Option.some.inj hact
    exact ⟨h.kept.trans (List.prefix_append _ _), h.marks_length, h.marked⟩
  cases a with
  | next => exact hskip (v.act_next ▸ hact)
  | skip n => exact hskip hact
  | mark =>
      obtain rfl := Option.some.inj hact
      refine ⟨h.kept, ?_, fun {k x} hk hx => ?_⟩
      · rw [List.length_append]
        exact Nat.le_add_right_of_le h.marks_length
      · rcases Nat.lt_or_ge k v.marks.length with hlt | hge
        · rw [List.getElem?_append_left hlt] at hx
          exact h.marked hk hx
        · rw [List.getElem?_append_right hge] at hx
          obtain rfl := List.mem_singleton.1 (List.mem_of_getElem? hx)
          exact h.kept
  | reset k =>
      obtain ⟨x, hx, rfl⟩ := Option.map_eq_some_iff.1 hact
      exact ⟨h.marked (ha k rfl) hx, h.marks_length, h.marked⟩

/-- A moment stays in the past of all that follows while no mark from before it is gone back to. -/
theorem extends_of_run {acts : List Act} (hacts : ∀ k, .reset k ∈ acts → u.marks.length ≤ k)
    (h : u.run acts = some v) : Extends u v :=
  run_keeps (Extends u) (fun a => ∀ k, a = .reset k → u.marks.length ≤ k)
    (fun ha hu hact => hu.act ha hact) (fun _ ha k hk => hacts k (hk ▸ ha)) (extends_refl u) h

end Trail

/-- However a cursor came to its place by reading, marking and going back to its marks, it sees
ahead what it will read, stands between two code points of the text, and is at the end iff reading
no longer moves it. From any earlier moment that no later return to a mark undid, the text up to
here is spelled by the code points read since. -/
theorem reads_as_decoded (source : Text) (acts : List Act) (u : Trail)
    (h : (Trail.start source).run acts = some u) :
    (∀ n, u.cursor.peekAt n = (u.cursor.skip n).next.1) ∧
    u.cursor.pos ≤ source.length ∧ source.IsBoundary u.cursor.pos ∧
    (u.cursor.atEnd = true ↔ u.cursor.next.2.pos = u.cursor.pos) ∧
    ∀ before after v, acts = before ++ after → (Trail.start source).run before = some v →
      (∀ k, .reset k ∈ after → v.marks.length ≤ k) →
      ∃ since, u.read = v.read ++ since ∧
        u.cursor.since? v.cursor.pos = some (ofCodePoints since) := by
  have hu := Trail.sound_of_run h
  refine ⟨u.cursor.peekAt_eq_next, hu.here.le_length, hu.here.isBoundary,
    u.cursor.atEnd_iff_pos_next, ?_⟩
  rintro before after v rfl hbefore hafter
  have hv := Trail.sound_of_run hbefore
  rw [Trail.run_append, hbefore, Option.bind_some] at h
  obtain ⟨since, hsince⟩ := (Trail.extends_of_run hafter h).kept
  obtain ⟨hle, hslice⟩ := hv.here.slice (hsince ▸ hu.here)
  refine ⟨since, hsince.symm, ?_⟩
  rw [since?_natCast, if_pos hle, hu.source_eq, hslice]

/-- A letter of two bytes and a sequence cut short, read again after going back to a mark. -/
theorem reads_as_decoded_again :
    let text : Text := [0x61, 0xC3, 0xA7, 0xE2, 0x82, 0x7A]
    let after : List Act := [.mark, .skip 2, .reset 0, .skip 3]
    ∃ u v, (Trail.start text).run (.next :: after) = some u ∧
      (Trail.start text).run [.next] = some v ∧ u.cursor.pos = 5 ∧ text.IsBoundary 5 ∧
      u.cursor.peekAt 1 = (u.cursor.skip 1).next.1 ∧
      ∃ since, u.read = v.read ++ since ∧ ofCodePoints since = [0xC3, 0xA7, 0xE2, 0x82] ∧
        u.cursor.since? v.cursor.pos = some (ofCodePoints since) := by
  intro text after
  refine ⟨_, _, rfl, rfl, rfl, ?_⟩
  obtain ⟨hpeek, -, hboundary, -, hsince⟩ := reads_as_decoded text (.next :: after) _ rfl
  obtain ⟨since, hread, hslice⟩ := hsince [.next] after _ rfl rfl fun _ _ => Nat.zero_le _
  exact ⟨hboundary, hpeek 1, since, hread, Option.some.inj hslice.symm, hslice⟩

end Cursor

end PoolProse

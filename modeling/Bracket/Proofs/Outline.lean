import Bracket.Proofs.Document
import Bracket.Proofs.Path

/-!
# The outlines of images

An outline marks the beginning of a loop but not its end: that is told by the margin of the line
behind it. So the outline of a program has to be read together with what follows. If that is not
indented as deep as the program (`Shallow`), it is settled where the program ends, and the whole
text tells the program and the rest (`Program.outline_append_inj`). What follows a loop is its next
sibling, which has the margin of the loop itself, or else what follows the sequence of the loop
(`Shallow.outline`); what follows a module is a name, and rooted names have no margin at all.
-/

namespace Bracket

/-- A line tells where it ends. -/
theorem IsLine.append_break_inj {a b x y : Bytes} (ha : IsLine a) (hb : IsLine b)
    (h : a ++ 0x0A :: x = b ++ 0x0A :: y) : a = b ∧ x = y := by
  rcases List.append_eq_append_iff.mp h with ⟨more, rfl, hx⟩ | ⟨more, rfl, hy⟩
  · cases more with
    | nil => exact ⟨(List.append_nil a).symm, (List.cons.inj hx).2⟩
    | cons c more =>
      obtain ⟨rfl, -⟩ := List.cons.inj hx
      exact absurd (List.mem_append_right a List.mem_cons_self) hb
  · cases more with
    | nil => exact ⟨List.append_nil b, (List.cons.inj hy).2.symm⟩
    | cons c more =>
      obtain ⟨rfl, -⟩ := List.cons.inj hy
      exact absurd (List.mem_append_right b List.mem_cons_self) ha

/-! ## Margins -/

/-- The text does not begin with the margin of the given depth. -/
def Shallow (depth : Nat) (text : Bytes) : Prop := ¬ outlineMargin depth <+: text

/-- One level deeper is two spaces more. -/
theorem outlineMargin_succ (depth : Nat) :
    outlineMargin (depth + 1) = outlineMargin depth ++ [0x20, 0x20] := by
  rw [outlineMargin, Nat.mul_succ, ← List.replicate_append_replicate]
  rfl

/-- What is not indented this far is not indented further. -/
theorem Shallow.succ {depth : Nat} {text : Bytes} (h : Shallow depth text) :
    Shallow (depth + 1) text := by
  intro hmargin
  apply h
  rw [outlineMargin_succ] at hmargin
  exact (List.prefix_append _ _).trans hmargin

/-- A text with a margin of its own is as deep as that margin. -/
theorem shallow_margin_append (depth : Nat) {b : UInt8} (hb : b ≠ 0x20) (text : Bytes) :
    Shallow (depth + 1) (outlineMargin depth ++ b :: text) := by
  intro hmargin
  rw [outlineMargin_succ, List.prefix_append_right_inj, List.cons_prefix_cons] at hmargin
  exact hb hmargin.1.symm

/-! ## Lines of a program -/

/-- The first line of an expression, without its margin. -/
def Expression.label : Expression → Bytes
  | .operator s => bytes "Operator(" ++ s.name ++ bytes ")"
  | .loop _ => bytes "Loop"

/-- The lines behind the first line of an expression. -/
def Expression.innerOutline (depth : Nat) : Expression → Bytes
  | .operator _ => []
  | .loop body => Program.outline (depth + 1) body

namespace Expression

/-- The outline of an expression is a line for itself, and then the lines for what it holds. -/
theorem outline_eq (depth : Nat) (e : Expression) :
    e.outline depth = outlineMargin depth ++ (e.label ++ 0x0A :: e.innerOutline depth) := by
  cases e with
  | operator s =>
    have hend : bytes ")\n" = bytes ")" ++ [0x0A] := rfl
    simp only [outline, label, innerOutline, hend, List.append_assoc]
  | loop body =>
    have hend : bytes "Loop\n" = bytes "Loop" ++ [0x0A] := rfl
    simp only [outline, label, innerOutline, hend, List.append_assoc, List.singleton_append]

theorem isLine_label (e : Expression) : IsLine e.label := by
  cases e with
  | operator s =>
    rw [label, isLine_append, isLine_append]
    exact ⟨⟨by decide, s.isLine_name⟩, by decide⟩
  | loop body =>
    show IsLine (bytes "Loop")
    decide

/-- A label never begins with a space, so a margin ends where the label begins. -/
theorem exists_label_eq_cons (e : Expression) : ∃ b rest, e.label = b :: rest ∧ b ≠ 0x20 := by
  cases e with
  | operator s => exact ⟨_, _, rfl, by decide⟩
  | loop body => exact ⟨_, _, rfl, by decide⟩

end Expression

/-- What follows an expression is not indented deeper than the expression. -/
theorem Shallow.outline {depth : Nat} {text : Bytes} (h : Shallow depth text)
    (es : List Expression) : Shallow (depth + 1) (Program.outline depth es ++ text) := by
  cases es with
  | nil => exact h.succ
  | cons e rest =>
    obtain ⟨b, label, hlabel, hb⟩ := e.exists_label_eq_cons
    rw [Program.outline, e.outline_eq, hlabel]
    simpa only [List.append_assoc, List.cons_append] using shallow_margin_append depth hb _

/-- A program that is not empty is indented. -/
theorem Program.not_shallow_outline_cons (depth : Nat) (e : Expression) (rest : List Expression)
    (text : Bytes) : ¬ Shallow depth (Program.outline depth (e :: rest) ++ text) := by
  rw [Program.outline, e.outline_eq]
  simp only [List.append_assoc]
  exact not_not_intro (List.prefix_append _ _)

mutual

/-- The lines of an expression tell the expression, if what follows is not indented deeper. -/
theorem Expression.outline_append_inj (e f : Expression) (depth : Nat) {x y : Bytes}
    (hx : Shallow (depth + 1) x) (hy : Shallow (depth + 1) y)
    (h : e.outline depth ++ x = f.outline depth ++ y) : e = f ∧ x = y := by
  simp only [Expression.outline_eq, List.append_assoc, List.cons_append,
    List.append_cancel_left_eq] at h
  -- labels are lines, so the first line break ends both of them
  obtain ⟨hlabel, hbehind⟩ := e.isLine_label.append_break_inj f.isLine_label h
  match e, f with
  | .operator s, .operator s' =>
    have hname : s.name = s'.name := by simpa [Expression.label] using hlabel
    exact ⟨by rw [Symbol.name_injective hname], hbehind⟩
  | .loop body, .loop body' =>
    obtain ⟨rfl, rest⟩ := Program.outline_append_inj body body' (depth + 1) hx hy hbehind
    exact ⟨rfl, rest⟩
  -- labels of different kinds begin with different letters
  | .operator _, .loop _ =>
    have hhead : some (0x4F : UInt8) = some 0x4C := congrArg List.head? hlabel
    exact absurd hhead (by decide)
  | .loop _, .operator _ =>
    have hhead : some (0x4C : UInt8) = some 0x4F := congrArg List.head? hlabel
    exact absurd hhead (by decide)

/-- **The lines of a program tell the program**, if what follows is not indented as deep. -/
theorem Program.outline_append_inj (es fs : List Expression) (depth : Nat) {x y : Bytes}
    (hx : Shallow depth x) (hy : Shallow depth y)
    (h : Program.outline depth es ++ x = Program.outline depth fs ++ y) : es = fs ∧ x = y := by
  match es, fs with
  | [], [] => exact ⟨rfl, h⟩
  -- one program ends first: what stands behind it would have to be indented
  | [], f :: fs =>
    obtain rfl : x = _ := h
    exact absurd hx (Program.not_shallow_outline_cons depth f fs y)
  | e :: es, [] =>
    obtain rfl : _ = y := h
    exact absurd hy (Program.not_shallow_outline_cons depth e es x)
  | e :: es, f :: fs =>
    simp only [Program.outline, List.append_assoc] at h
    obtain ⟨rfl, hrest⟩ :=
      Expression.outline_append_inj e f depth (hx.outline es) (hy.outline fs) h
    obtain ⟨rfl, hbehind⟩ := Program.outline_append_inj es fs depth hx hy hrest
    exact ⟨rfl, hbehind⟩

end

/-! ## Modules -/

/-- The outline of a module is a line with its name, and then the outline of its program. -/
theorem Module.outline_eq (m : Module) :
    m.outline = m.uri ++ 0x0A :: Program.outline 1 m.program := by
  have hend : bytes "\n" = [0x0A] := rfl
  rw [Module.outline, hend, List.append_assoc, List.singleton_append]

/-- The lines of a module tell the module, if what follows is not indented. -/
theorem Module.outline_append_inj {m n : Module} (hm : IsLine m.uri) (hn : IsLine n.uri)
    {x y : Bytes} (hx : Shallow 1 x) (hy : Shallow 1 y) (h : m.outline ++ x = n.outline ++ y) :
    m = n ∧ x = y := by
  obtain ⟨uri, program⟩ := m
  obtain ⟨uri', program'⟩ := n
  simp only [Module.outline_eq, List.append_assoc, List.cons_append] at h
  obtain ⟨rfl, hlines⟩ := hm.append_break_inj hn h
  obtain ⟨rfl, hbehind⟩ := Program.outline_append_inj program program' 1 hx hy hlines
  exact ⟨rfl, hbehind⟩

/-- Modules with rooted names are not indented. -/
theorem shallow_flatMap_outline {modules : List Module}
    (h : ∀ m ∈ modules, Path.isRooted m.uri = true) :
    Shallow 1 (modules.flatMap Module.outline) := by
  cases modules with
  | nil =>
    intro hmargin
    simpa [outlineMargin] using hmargin.length_le
  | cons m rest =>
    obtain ⟨name, hname⟩ := Path.eq_cons_of_isRooted (h m List.mem_cons_self)
    rw [List.flatMap_cons, Module.outline, hname]
    exact shallow_margin_append 0 (by decide) _

/-- A rooted name begins with a slash, so the outline of one module ends where the next one begins.
-/
theorem modules_eq_of_flatMap_outline_eq {modules others : List Module}
    (hm : ∀ m ∈ modules, Path.isRooted m.uri = true ∧ IsLine m.uri)
    (ho : ∀ m ∈ others, Path.isRooted m.uri = true ∧ IsLine m.uri)
    (h : modules.flatMap Module.outline = others.flatMap Module.outline) : modules = others := by
  induction modules generalizing others with
  | nil =>
    cases others with
    | nil => rfl
    | cons n rest => simp [Module.outline_eq] at h
  | cons m rest ih =>
    cases others with
    | nil => simp [Module.outline_eq] at h
    | cons n rest' =>
      rw [List.forall_mem_cons] at hm ho
      rw [List.flatMap_cons, List.flatMap_cons] at h
      -- other modules are not indented, so they do not run on in the program of this one
      obtain ⟨rfl, hbehind⟩ := Module.outline_append_inj hm.1.2 ho.1.2
        (shallow_flatMap_outline fun m hmem => (hm.2 m hmem).1)
        (shallow_flatMap_outline fun m hmem => (ho.2 m hmem).1) h
      rw [ih hm.2 ho.2 hbehind]

/-- **The outline of an image tells the image**, if the names of its modules are rooted and have no
line breaks. The programs may be any trees. -/
theorem Image.modules_eq_of_outline_eq {a b : Image}
    (ha : ∀ m ∈ a.modules, Path.isRooted m.uri = true ∧ IsLine m.uri)
    (hb : ∀ m ∈ b.modules, Path.isRooted m.uri = true ∧ IsLine m.uri)
    (h : a.outline = b.outline) : a.modules = b.modules :=
  modules_eq_of_flatMap_outline_eq ha hb h

/-- Two empty loops in a loop, and an unknown symbol behind it. -/
theorem Image.modules_eq_of_outline_eq_empty_loops :
    (⟨[⟨bytes "/a", [.loop [.loop [], .loop []], .operator (.unknown 200)]⟩]⟩ : Image).outline =
        bytes "/a\n  Loop\n    Loop\n    Loop\n  Operator(Symbol(200))\n" ∧
      [⟨bytes "/a", [.loop [.loop [], .loop []], .operator (.unknown 200)]⟩] =
        (⟨[⟨bytes "/a", .loop (List.replicate 2 (.loop [])) :: [.operator (.unknown 200)]⟩]⟩ :
          Image).modules :=
  ⟨by decide, modules_eq_of_outline_eq (by decide) (by decide) rfl⟩

end Bracket

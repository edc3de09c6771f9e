import Bracket.Program
import Mathlib.Data.List.Forall2

/-!
# The order of a walk

An expression of a program has an address: its index among the top level expressions, then its index
in the body of that loop, and so on. Addresses are ordered like words. A loop comes before what is
in its body, since its address is a beginning of theirs, and of two expressions in one body the
whole of the first comes before the second.

A walk visits the expressions of a program at all its addresses, in this order
(`Program.walksInOrder_visits`). The depth of a visit is the length of the address, and at every
beginning of the address but the whole there is a loop (`Program.at?_take`), so the depth counts the
loops around the expression (`Program.length_eq_loopsAround`).
-/

namespace Bracket

/-! ## Addresses -/

/-- The expression at an address within an expression, which itself is at the empty address. -/
def Expression.at? : Expression → List Nat → Option Expression
  | e, [] => some e
  | .operator _, _ :: _ => none
  | .loop body, i :: rest => body[i]?.bind (Expression.at? · rest)

/-- The expression at an address of a program. -/
def Program.at? (program : List Expression) : List Nat → Option Expression
  | [] => none
  | i :: rest => program[i]?.bind (Expression.at? · rest)

def Expression.isLoop : Expression → Bool
  | .operator _ => false
  | .loop _ => true

/-- The number of loops around an address: those at its beginnings, the address itself left out. -/
def Program.loopsAround (program : List Expression) (address : List Nat) : Nat :=
  (List.range address.length).countP fun n =>
    (Program.at? program (address.take n)).any Expression.isLoop

@[simp] theorem Expression.at?_nil (e : Expression) : e.at? [] = some e := by cases e <;> rfl

@[simp] theorem Expression.at?_loop_cons (body : List Expression) (i : Nat) (rest : List Nat) :
    (Expression.loop body).at? (i :: rest) = Program.at? body (i :: rest) := rfl

/-- The address of an expression begins with the number of those in front of it. -/
@[simp] theorem Program.at?_length (es : List Expression) (e : Expression) (fs : List Expression)
    (rest : List Nat) : Program.at? (es ++ e :: fs) (es.length :: rest) = e.at? rest := by
  simp [Program.at?]

/-- Every beginning of an address that goes on is the address of a loop. -/
theorem Expression.at?_take {e found : Expression} {address : List Nat}
    (h : e.at? address = some found) {n : Nat} (hn : n < address.length) :
    ∃ body, e.at? (address.take n) = some (.loop body) := by
  induction address generalizing e n with
  | nil => simp at hn
  | cons i rest ih =>
    cases e with
    | operator s => simp [Expression.at?] at h
    | loop body =>
      cases n with
      | zero => exact ⟨body, by simp⟩
      | succ n =>
        obtain ⟨child, hchild, hfound⟩ := Option.bind_eq_some_iff.mp h
        obtain ⟨inner, hinner⟩ := ih hfound (Nat.lt_of_succ_lt_succ hn)
        exact ⟨inner, by simp [Program.at?, hchild, hinner]⟩

theorem Program.at?_take {program : List Expression} {address : List Nat} {found : Expression}
    (h : Program.at? program address = some found) {n : Nat} (hn : n + 1 < address.length) :
    ∃ body, Program.at? program (address.take (n + 1)) = some (.loop body) := by
  cases address with
  | nil => simp at hn
  | cons i rest =>
    obtain ⟨e, he, hfound⟩ := Option.bind_eq_some_iff.mp h
    obtain ⟨body, hbody⟩ := Expression.at?_take hfound (Nat.lt_of_succ_lt_succ hn)
    exact ⟨body, by simp [Program.at?, he, hbody]⟩

/-- The length of an address counts the loops around it and the expression itself. -/
theorem Program.length_eq_loopsAround {program : List Expression} {address : List Nat}
    {found : Expression} (h : Program.at? program address = some found) :
    address.length = 1 + Program.loopsAround program address := by
  cases address with
  | nil => simp [Program.at?] at h
  | cons i rest =>
    have hloops : ∀ n ∈ List.range rest.length,
        ((Program.at? program ((i :: rest).take (n + 1))).any Expression.isLoop) = true := by
      intro n hn
      obtain ⟨body, hbody⟩ := Program.at?_take h (Nat.succ_lt_succ (List.mem_range.mp hn))
      rw [hbody]
      rfl
    have hcount : Program.loopsAround program (i :: rest) = rest.length := by
      rw [loopsAround, List.length_cons, List.range_succ_eq_map, List.countP_cons, List.countP_map]
      -- nothing stands at the empty address, and a loop at every longer one
      simp only [Function.comp_def]
      rw [List.countP_eq_length.mpr hloops]
      simp [Program.at?]
    rw [List.length_cons, hcount, Nat.add_comm]

/-! ## All addresses in order -/

mutual

/-- The addresses within an expression, in the order of a walk. -/
def Expression.addresses : Expression → List (List Nat)
  | .operator _ => [[]]
  | .loop body => [] :: Program.addressesFrom 0 body

/-- The addresses of a sequence whose first member has the given index. -/
def Program.addressesFrom (i : Nat) : List Expression → List (List Nat)
  | [] => []
  | e :: rest => e.addresses.map (i :: ·) ++ Program.addressesFrom (i + 1) rest

end

/-- The addresses of the expressions of a program, in the order of a walk. -/
def Program.addresses (program : Program) : List (List Nat) := Program.addressesFrom 0 program

mutual

/-- The addresses of an expression are those at which there is something. -/
theorem Expression.mem_addresses (e : Expression) {address : List Nat} :
    address ∈ e.addresses ↔ (e.at? address).isSome = true := by
  match e, address with
  | .operator s, address => cases address <;> simp [Expression.addresses, Expression.at?]
  | .loop body, [] => simp [Expression.addresses]
  | .loop body, i :: rest => simp [Expression.addresses, Program.mem_addressesFrom body]

/-- An address of a sequence begins with an index, counted from that of the first member. -/
theorem Program.mem_addressesFrom (es : List Expression) {i : Nat} {address : List Nat} :
    address ∈ Program.addressesFrom i es ↔
      ∃ j rest, address = (i + j) :: rest ∧ (Program.at? es (j :: rest)).isSome = true := by
  match es with
  | [] => simp [Program.addressesFrom, Program.at?]
  | e :: es =>
    rw [Program.addressesFrom, List.mem_append, List.mem_map, Program.mem_addressesFrom es]
    constructor
    · rintro (⟨rest, hrest, rfl⟩ | ⟨j, rest, rfl, hat⟩)
      · exact ⟨0, rest, rfl, e.mem_addresses.mp hrest⟩
      · exact ⟨j + 1, rest, by rw [Nat.add_right_comm, Nat.add_assoc], hat⟩
    · rintro ⟨_ | j, rest, rfl, hat⟩
      · exact .inl ⟨rest, e.mem_addresses.mpr hat, rfl⟩
      · exact .inr ⟨j, rest, by rw [Nat.add_right_comm, Nat.add_assoc], hat⟩

end

/-- **The addresses of a program are those at which there is something.** -/
theorem Program.mem_addresses {program : Program} {address : List Nat} :
    address ∈ program.addresses ↔ (Program.at? program address).isSome = true := by
  rw [Program.addresses, Program.mem_addressesFrom program]
  cases address <;> simp [Program.at?]

mutual

/-- Addresses come in order: an expression before what it holds, and that from left to right. -/
theorem Expression.pairwise_addresses (e : Expression) : e.addresses.Pairwise (· < ·) := by
  match e with
  | .operator s => exact List.pairwise_singleton _ _
  | .loop body =>
    refine List.pairwise_cons.mpr ⟨fun address h => ?_, Program.pairwise_addressesFrom body 0⟩
    obtain ⟨j, rest, rfl, -⟩ := (Program.mem_addressesFrom body).mp h
    exact List.nil_lt_cons _ _

theorem Program.pairwise_addressesFrom (es : List Expression) (i : Nat) :
    (Program.addressesFrom i es).Pairwise (· < ·) := by
  match es with
  | [] => exact List.Pairwise.nil
  | e :: es =>
    refine List.pairwise_append.mpr ⟨?_, Program.pairwise_addressesFrom es (i + 1), ?_⟩
    · exact List.pairwise_map.mpr (e.pairwise_addresses.imp List.cons_lt_cons_self.mpr)
    · -- what follows the first member begins with a larger index
      intro first hfirst second hsecond
      obtain ⟨rest, -, rfl⟩ := List.mem_map.mp hfirst
      obtain ⟨j, rest', rfl, -⟩ := (Program.mem_addressesFrom es).mp hsecond
      exact List.cons_lt_cons_iff.mpr (.inl (by omega))

end

/-! ## The visits of a walk -/

mutual

/-- A walk through an expression visits what is at its addresses, and goes down by one for every
index of the address. -/
theorem Expression.forall₂_visits (e : Expression) (depth : Nat) :
    List.Forall₂ (fun address visit => e.at? address = some visit.2 ∧
        visit.1 = depth + address.length)
      e.addresses (e.visits depth) := by
  match e with
  | .operator s => exact .cons ⟨rfl, rfl⟩ .nil
  | .loop body =>
    refine .cons ⟨rfl, rfl⟩ ((Program.forall₂_visitsFrom [] body (depth + 1)).imp ?_)
    rintro (_ | ⟨i, rest⟩) visit ⟨hat, hdepth⟩
    · simp [Program.at?] at hat
    · exact ⟨hat, by omega⟩

/-- The same for the end of a sequence, with the addresses of the whole sequence. -/
theorem Program.forall₂_visitsFrom (front es : List Expression) (depth : Nat) :
    List.Forall₂ (fun address visit => Program.at? (front ++ es) address = some visit.2 ∧
        visit.1 + 1 = depth + address.length)
      (Program.addressesFrom front.length es) (Program.visitsFrom depth es) := by
  match es with
  | [] => exact .nil
  | e :: es =>
    refine List.rel_append ?_ ?_
    · refine List.forall₂_map_left_iff.mpr ((e.forall₂_visits depth).imp ?_)
      rintro rest visit ⟨hat, hdepth⟩
      exact ⟨(Program.at?_length ..).trans hat, by rw [hdepth, List.length_cons]; rfl⟩
    · simpa using Program.forall₂_visitsFrom (front ++ [e]) es depth

end

/-- The visits are those of every expression of the program, each once: an expression comes before
what is inside it and behind what precedes it in the same body, and its depth counts the loops
around it from 1. -/
structure WalksInOrder (program : Program) (visits : List (Nat × Expression))
    (addresses : List (List Nat)) : Prop where
  /-- The addresses are in the order of words, so none is there twice. -/
  ascending : addresses.Pairwise (· < ·)
  /-- There is an expression at these addresses and at no others. -/
  mem_iff : ∀ address, address ∈ addresses ↔ (Program.at? program address).isSome = true
  /-- One by one the visits are what is at these addresses. -/
  visited : List.Forall₂ (fun address visit => Program.at? program address = some visit.2 ∧
    visit.1 = 1 + Program.loopsAround program address) addresses visits

/-- **A walk visits the expressions of a program in the order of their addresses.** -/
theorem Program.walksInOrder_visits (program : Program) :
    WalksInOrder program program.visits program.addresses where
  ascending := Program.pairwise_addressesFrom program 0
  mem_iff := fun _ => Program.mem_addresses
  visited := by
    refine (Program.forall₂_visitsFrom [] program 1).imp ?_
    rintro address visit ⟨hat, hdepth⟩
    have hlength := Program.length_eq_loopsAround hat
    exact ⟨hat, by simp only [List.nil_append] at hlength; omega⟩

end Bracket

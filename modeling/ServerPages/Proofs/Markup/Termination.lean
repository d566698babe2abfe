import Mathlib.Logic.Relation
import ServerPages.Disk.Tree
import ServerPages.Proofs.Markup.Step

/-!
# Scans come to an end

The loop of a scan takes off the files that are used up, and makes a step if anything is left to
read. Whatever files a template includes, itself among them, every round of the loop makes the list
of unread lengths smaller in the lexicographic order, the root template first, and no list is longer
than files may be nested. The loop therefore stops after finitely many rounds.
-/

namespace ServerPages

/-- A list that descends from another one precedes it in the lexicographic order, in which a list
precedes its extensions. -/
theorem Stack.Descends.lt {l m : List Nat} (h : Descends l m) : l < m := by
  fun_induction Descends l m with
  | case1 a l b m ih =>
    rcases h with hlt | ⟨rfl, hd⟩
    · exact List.Lex.rel hlt
    · exact List.Lex.cons (ih hd)
  | case2 => exact h.elim

namespace Scan

variable {σ : Type} {v : Visitor σ} {disk : Disk} {s s' : Scan σ}

/-- One round of the loop of a scan: something is left to read once the files that are used up have
been taken off, and a step reads some of it. -/
def Round (v : Visitor σ) (disk : Disk) (s s' : Scan σ) : Prop :=
  s.settle.input.stack.unread ≠ [] ∧ s.settle.step v disk = .ok s'

/-- The loop of a scan does not go on from here, and this is the result of the scan. -/
inductive Stops (v : Visitor σ) (disk : Disk) (s : Scan σ) : Except (Halt σ) (Scan σ) → Prop where
  /-- Nothing is left to read, and the pending text is handed over. -/
  | finished (hu : s.settle.input.stack.unread = []) : Stops v disk s (s.settle.flush v disk)
  /-- The next step fails. -/
  | broken {halt : Halt σ} (hu : s.settle.input.stack.unread ≠ [])
    (hs : s.settle.step v disk = .error halt) : Stops v disk s (.error halt)

/-- A round makes progress, and does not nest files deeper than they may be. -/
theorem Round.within (h : Round v disk s s') :
    Stack.Within s'.input.stack s.input.stack := by
  obtain ⟨hahead, hlength⟩ := within_of_step h.1 h.2
  have hsettled : s.settle.input.stack.length ≤ s.input.stack.length := Stack.length_settle_le _
  constructor
  · exact Stack.ahead_of_settle hahead
  · apply Nat.le_trans hlength
    exact Nat.max_le.mpr ⟨Nat.le_max_left .., Nat.le_trans hsettled (Nat.le_max_right ..)⟩

/-- The unread lengths become smaller in every round. -/
theorem Round.lengths_lt (h : Round v disk s s') :
    s'.input.stack.lengths < s.input.stack.lengths :=
  h.within.1.lt

/-- Files stay nested only as deep as they may be. -/
theorem length_le_of_rounds (hs : s.input.stack.length ≤ maxDepth)
    (h : Relation.ReflTransGen (Round v disk) s s') : s'.input.stack.length ≤ maxDepth := by
  induction h with
  | refl => exact hs
  | tail _ hround ih =>
    apply Nat.le_trans hround.within.2
    exact Nat.max_le.mpr ⟨Nat.le_refl _, ih⟩

/-- A scan is finitely many rounds of its loop, up to a place where the loop stops with the result
of the scan. -/
theorem exists_stop (v : Visitor σ) (disk : Disk) (s : Scan σ) :
    ∃ last, Relation.ReflTransGen (Round v disk) s last ∧ Stops v disk last (s.run v disk) := by
  fun_induction run v disk s with
  | case1 s hu => exact ⟨s, .refl, .finished hu⟩
  | case2 s hu halt hs => exact ⟨s, .refl, .broken hu hs⟩
  | case3 s hu s' hs ih =>
    obtain ⟨last, hrounds, hstops⟩ := ih
    exact ⟨last, .head ⟨hu, hs⟩ hrounds, hstops⟩

/-- Scanning a root template comes to an end, whatever it includes. In every round the unread
lengths become smaller in the lexicographic order from the root template up, with no more of them
than files may be nested, and after finitely many rounds the scan has its result. -/
theorem run_terminates (v : Visitor σ) (disk : Disk) (crossing : Bool) (name source : Text)
    (canonical? : Option Text) (baseDir : Text) (encoding : Encoding) (state : σ) :
    let root := start ((Input.empty crossing).push name source canonical? baseDir encoding) state
    (∀ s, Relation.ReflTransGen (Round v disk) root s →
      s.input.stack.lengths.length ≤ maxDepth ∧
        ∀ s', Round v disk s s' → s'.input.stack.lengths < s.input.stack.lengths) ∧
      ∃ last, Relation.ReflTransGen (Round v disk) root last ∧
        Stops v disk last (root.run v disk) := by
  intro root
  constructor
  · intro s hrounds
    have hroot : root.input.stack.length ≤ maxDepth := show 1 ≤ maxDepth by decide
    rw [Stack.length_lengths]
    exact ⟨length_le_of_rounds hroot hrounds, fun s' hround => hround.lengths_lt⟩
  · exact exists_stop v disk root

/-- A file that includes itself: the first round opens it and leaves more text than it has read. -/
theorem run_terminates_of_cycle :
    let disk := (FileTree.empty.add "a" (.file (Encoding.encode "x<%@ include file='a' %>"))).disk
    let root := start ((Input.empty false).push "page" "<%@ include file='a' %>" none [] .utf8) []
    (∃ s, Round (.recorder true) disk root s ∧ root.input.stack.lengths = [23] ∧
      s.input.stack.lengths = [0, 24] ∧ s.input.stack.lengths < root.input.stack.lengths) ∧
      ∃ last, Relation.ReflTransGen (Round (.recorder true) disk) root last ∧
        Stops (.recorder true) disk last (root.run (.recorder true) disk) := by
  intro disk root
  obtain ⟨hrounds, hstops⟩ :=
    run_terminates (.recorder true) disk false "page" "<%@ include file='a' %>" none [] .utf8 []
  refine ⟨?_, hstops⟩
  have hstep : (root.settle.step (.recorder true) disk).toOption.map (·.input.stack.lengths) =
      some [0, 24] := by decide +kernel
  obtain ⟨s, hs, hlengths⟩ := Option.map_eq_some_iff.mp hstep
  have hround : Round (.recorder true) disk root s := ⟨by decide +kernel, eq_ok_of_toOption hs⟩
  exact ⟨s, hround, by decide +kernel, hlengths, (hrounds root .refl).2 s hround⟩

end Scan

end ServerPages

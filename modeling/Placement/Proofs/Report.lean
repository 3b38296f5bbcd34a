import Mathlib
import Placement.Report
import Placement.Proofs.Decimal.Fixed
import Placement.Proofs.Rounds
import Placement.Proofs.Scoring.Safety

/-!
# What a table shows

A table has a header and a line for each node, in the order of the ranking. What a line looks like
is said column by column, apart from the function that writes it. Each number in it is the decimal
nearest to a double of the ranking: scores are amounts, and criteria values are at least one, so
what is left of them without that one is an amount as well. The order is one of scores, and rounding
keeps it, although lines may show equal scores where the scores are not.
-/
namespace Placement
open Decimal Double

namespace Report

@[simp] theorem toList_padRight (width : ℕ) (s : String) :
    (padRight width s).toList = s.toList.rightpad width ' ' := by
  rw [padRight, String.toList_append, String.toList_ofList, ← String.length_toList]
  rfl

@[simp] theorem toList_padLeft (width : ℕ) (s : String) :
    (padLeft width s).toList = s.toList.leftpad width ' ' := by
  rw [padLeft, String.toList_append, String.toList_ofList, ← String.length_toList]
  rfl

/-- The rank, the name and the numbers of a line; the criteria are in the order of their columns. -/
structure Line where
  rank : ℕ
  node : String
  score : Figure
  criteria : Fin 4 → Figure

namespace Line

/-- The columns of a line: the rank in four characters and the name in sixteen, each with blanks
after it, the score in eight and the criteria in six each, with blanks before them. A column that is
too narrow grows. One blank stands between two columns, and two after the score. -/
def text (l : Line) : String :=
  String.ofList <|
    (Nat.toDigits 10 l.rank).rightpad 4 ' ' ++ ' ' :: l.node.toList.rightpad 16 ' ' ++
      ' ' :: l.score.text.toList.leftpad 8 ' ' ++ ' ' :: ' ' ::
      [' '].intercalate (List.ofFn fun i => (l.criteria i).text.toList.leftpad 6 ' ') ++ ['\n']

theorem text_eq_tableLine (l : Line) :
    l.text = tableLine (count l.rank) l.node l.score.text (l.criteria 0).text
      (l.criteria 1).text (l.criteria 2).text (l.criteria 3).text := by
  apply String.toList_injective
  simp [text, tableLine, count]

/-- The line shows a scored node: the score with four places, and what is above one in each of the
criteria values with three. -/
structure Describes (l : Line) (x : NodeScore) : Prop where
  node : l.node = x.node
  score : l.score.Shows 4 x.score
  criteria : ∀ i, (l.criteria i).Shows 3 (x.breakdown.toVector.get i - 1.0)

end Line

/-- A scored node all of whose numbers are amounts. -/
structure Presentable (x : NodeScore) : Prop where
  score : Amount x.score
  criteria : ∀ i, Amount (x.breakdown.toVector.get i - 1.0)

theorem header_eq : header = "RANK NODE                SCORE  AVGCPU MAXCPU AVGMEM MAXMEM\n" := by
  decide +kernel

theorem exists_line {x : NodeScore} (h : Presentable x) (rank : ℕ) :
    ∃ l : Line, row rank x = l.text ∧ l.rank = rank ∧ l.Describes x := by
  obtain ⟨s, hscore, hs⟩ := exists_shows (show 0 < 4 by decide) h.score
  have hcriteria (i : Fin 4) := exists_shows (show 0 < 3 by decide) (h.criteria i)
  choose c htext hc using hcriteria
  refine ⟨⟨rank, x.node, s, c⟩, ?_, rfl, rfl, hs, hc⟩
  rw [Line.text_eq_tableLine, ← hscore, ← htext 0, ← htext 1, ← htext 2, ← htext 3]
  rfl

theorem exists_lines {ranking : List NodeScore} (h : ∀ x ∈ ranking, Presentable x) (rank : ℕ) :
    ∃ lines : List Line, rows rank ranking = lines.map Line.text ∧
      lines.map Line.rank = List.range' rank ranking.length ∧
      List.Forall₂ Line.Describes lines ranking := by
  induction ranking generalizing rank with
  | nil => exact ⟨[], rfl, rfl, .nil⟩
  | cons x ranking ih =>
    obtain ⟨hx, hrest⟩ := List.forall_mem_cons.mp h
    obtain ⟨l, htext, hrank, hl⟩ := exists_line hx rank
    obtain ⟨lines, htexts, hranks, hlines⟩ := ih hrest (rank + 1)
    refine ⟨l :: lines, ?_, ?_, .cons hl hlines⟩
    · rw [rows, htext, htexts, List.map_cons]
    · rw [List.map_cons, hrank, hranks, List.length_cons, List.range'_succ]

/-- Scores that do not grow along a ranking do not grow in what is shown of them. -/
theorem pairwise_score {ranking : List NodeScore} {lines : List Line}
    (h : List.Forall₂ Line.Describes lines ranking)
    (sorted : ranking.Pairwise fun a b => value b.score ≤ value a.score) :
    lines.Pairwise fun above below => below.score.value ≤ above.score.value := by
  induction h with
  | nil => exact .nil
  | @cons l x lines ranking hl hlines ih =>
    obtain ⟨hfirst, hrest⟩ := List.pairwise_cons.mp sorted
    refine List.pairwise_cons.mpr ⟨fun below hbelow => ?_, ih hrest⟩
    obtain ⟨i, hi, rfl⟩ := List.getElem_of_mem hbelow
    have hi' : i < ranking.length := hlines.length_eq ▸ hi
    have hdescribes := (List.forall₂_iff_get.mp hlines).2 i hi hi'
    exact hdescribes.score.value_le hl.score (hfirst _ (List.getElem_mem hi'))

end Report

theorem Breakdown.amount_sub_one {registry : Registry} {ledger : Ledger} {f : Footprint}
    {v : Vector Float 4} (h : v ∈ Engine.rows registry ledger f) (i : Fin 4) :
    Amount (v.get i - 1.0) := by
  obtain ⟨hbelow, hone⟩ := Engine.moderate_rows registry ledger f v h i
  rw [← value_one] at hone
  exact (hbelow.sub_of_le (below_one.mono (Nat.zero_le _)) (by norm_num) hone).amount

namespace Scheduler
variable {s : Scheduler} (reachable : s.Reachable) (f : Footprint)
include reachable

theorem presentable_of_mem_rankNodes {x : NodeScore} (h : x ∈ s.rankNodes f) :
    Report.Presentable x := by
  have hx := mem_rankNodes.mp h
  exact ⟨(Engine.below_score reachable.lessening hx).amount,
    fun i => Breakdown.amount_sub_one (Engine.mem_rows hx) i⟩

theorem pairwise_value_score :
    (s.rankNodes f).Pairwise fun a b => value b.score ≤ value a.score := by
  apply (pairwise_rankNodes s f).imp_of_mem
  intro a b ha hb hprefer
  have hamount := (presentable_of_mem_rankNodes reachable f ha).score
  have hamount' := (presentable_of_mem_rankNodes reachable f hb).score
  exact (le_iff_value hamount'.finite hamount.finite).mp
    (hamount'.le_of_compareTotal hamount (NodeScore.compareTotal_of_prefer hprefer))

end Scheduler

namespace Scenario

/-- The table of a scenario has a header and one line for each node in the order of the ranking,
numbered from one. Each column of numbers shows its double as the nearest decimal, the even one
where two are as near. The scores do not increase from line to line, and no column has anything but
digits and a point in it. -/
theorem table_is_faithful {scenario : Scenario} {s : Scheduler}
    (built : scenario.scheduler = .ok s) (nodes : s.nodeNames ≠ []) :
    ∃ ranking, scenario.ranking = .ok ranking ∧
      (ranking.map NodeScore.node).Perm s.nodeNames ∧
      ranking.Pairwise (fun a b => NodeScore.prefer a b = .lt) ∧
      ∃ lines : List Report.Line,
        Report.table ranking = "RANK NODE                SCORE  AVGCPU MAXCPU AVGMEM MAXMEM\n" ++
          String.join (lines.map Report.Line.text) ∧
        lines.map Report.Line.rank = List.range' 1 ranking.length ∧
        List.Forall₂ Report.Line.Describes lines ranking ∧
        (lines.Pairwise fun above below => below.score.value ≤ above.score.value) ∧
        ∀ l ∈ lines, ∀ p, p = l.score ∨ (∃ i, p = l.criteria i) →
          0 ≤ p.value ∧ ∀ c ∈ p.text.toList, c = '.' ∨ c.isDigit = true := by
  have reachable : s.Reachable := .initial (.restore built)
  have hperm := s.map_node_rankNodes_perm scenario.candidate
  have hne : s.rankNodes scenario.candidate ≠ [] := by
    intro hnil
    rw [hnil] at hperm
    exact nodes hperm.nil_eq.symm
  obtain ⟨lines, htexts, hranks, hlines⟩ := Report.exists_lines
    (fun x hx => s.presentable_of_mem_rankNodes reachable scenario.candidate hx) 1
  refine ⟨s.rankNodes scenario.candidate, ?_, hperm, s.pairwise_rankNodes scenario.candidate,
    lines, ?_, hranks, hlines, ?_, ?_⟩
  · rw [ranking, built]
    rfl
  · rw [Report.table, if_neg (mt List.isEmpty_iff.mp hne), htexts, String.join_cons,
      Report.header_eq]
  · exact Report.pairwise_score hlines (s.pairwise_value_score reachable scenario.candidate)
  · intro l _ p _
    exact ⟨p.value_nonneg, fun c hc => Figure.isDigit_of_mem_text hc⟩

/-- The table of a scenario with two nodes, the second of which is idle. -/
theorem table_is_faithful_lopsided :
    ∃ ranking, (Scheduler.lopsidedScenario "web").ranking = .ok ranking ∧
      Report.table ranking = String.join
        ["RANK NODE                SCORE  AVGCPU MAXCPU AVGMEM MAXMEM\n",
         "1    b                  1.0000   0.559  0.750  0.538  0.750\n",
         "2    a                  0.0000   0.707  1.000  0.619  0.875\n"] ∧
      (ranking.map NodeScore.node).Perm ["a", "b"] ∧
      ∃ lines : List Report.Line,
        Report.table ranking = "RANK NODE                SCORE  AVGCPU MAXCPU AVGMEM MAXMEM\n" ++
          String.join (lines.map Report.Line.text) ∧
        lines.map Report.Line.rank = [1, 2] ∧
        List.Forall₂ Report.Line.Describes lines ranking ∧
        lines.Pairwise fun above below => below.score.value ≤ above.score.value := by
  let s := Scheduler.lopsided "web"
  let f := Footprint.whole 1 1000000000
  have nodes : s.nodeNames = ["a", "b"] := by decide +kernel
  have built := Scheduler.scheduler_lopsidedScenario "web"
  obtain ⟨ranking, hranking, hperm, -, lines, htext, hranks, hlines, hscores, -⟩ :=
    table_is_faithful built (nodes ▸ List.cons_ne_nil _ _)
  -- the ranking is the evaluation turned around, which is in the order of names
  have turned : s.rankNodes f = (s.engine.evaluate s.registry s.ledger f).reverse :=
    s.rankNodes_eq_of_perm f (List.reverse_perm _) (by decide +kernel)
  have ranked : (Scheduler.lopsidedScenario "web").ranking = .ok (s.rankNodes f) := by
    rw [Scenario.ranking, built]
    rfl
  obtain rfl : s.rankNodes f = ranking := Except.ok.inj (ranked.symm.trans hranking)
  have shown : Report.table (s.rankNodes f) = String.join
      ["RANK NODE                SCORE  AVGCPU MAXCPU AVGMEM MAXMEM\n",
       "1    b                  1.0000   0.559  0.750  0.538  0.750\n",
       "2    a                  0.0000   0.707  1.000  0.619  0.875\n"] := by
    rw [turned]
    decide +kernel
  have hlength : (s.rankNodes f).length = 2 := by
    rw [← List.length_map, hperm.length_eq, nodes]
    rfl
  rw [hlength] at hranks
  exact ⟨_, hranking, shown, nodes ▸ hperm, lines, htext, hranks, hlines, hscores⟩

end Scenario

end Placement

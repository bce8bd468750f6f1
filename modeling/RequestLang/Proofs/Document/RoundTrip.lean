import RequestLang.Proofs.Document.Read.Document
import RequestLang.Proofs.Document.Reread.Document
import RequestLang.Proofs.Document.Script

/-! Which documents are read back from their canonical text as they are. -/
namespace RequestLang
open Lexeme

instance Lexeme.decidableCalm : (ls : List Lexeme) → (rest : List Char) → Decidable (Calm ls rest)
  | [], _ => .isTrue trivial
  | l :: ls, rest =>
    have := decidableCalm ls rest
    inferInstanceAs (Decidable ((l = ⟨.operator, "/"⟩ → opensComment (chars ls ++ rest) = false) ∧ Calm ls rest))

namespace Request

/-- The description and the script of a request are read back as they are: the description ends in a line that
is not empty, and the script does not begin with the name of a language that it does not have. -/
structure Kept (r : Request) : Prop where
  description : ∀ text ∈ r.description, text ≠ "" ∧ text.toList.getLast? ≠ some '\n'
  script : ∀ s ∈ r.script, s.language = .javascript →
    Script.languageOf? (String.ofList (Script.firstWord s.source.toList)) = none

theorem reread_description_iff {r : Request} (h : r.Legible) : r.reread.description = r.description ↔
    ∀ text ∈ r.description, text ≠ "" ∧ text.toList.getLast? ≠ some '\n' := by
  cases hd : r.description with
  | none => simp [reread, hd]
  | some text =>
    have := rereadDescription_eq_some (h.description text hd)
    simpa [reread, hd] using this

theorem reread_script_iff {r : Request} (h : r.Legible) : r.reread.script = r.script ↔
    ∀ s ∈ r.script, s.language = .javascript →
      Script.languageOf? (String.ofList (Script.firstWord s.source.toList)) = none := by
  cases hs : r.script with
  | none => simp [reread, hs]
  | some s =>
    have := Script.ofBlock_block (h.script s hs)
    simpa [reread, hs] using this

theorem reread_plain_iff {r : Request} (h : r.Legible) : r.reread.plain = r.plain ↔ r.Kept := by
  constructor
  · intro heq
    have hdescription := congrArg Request.description heq
    have hscript := congrArg Request.script heq
    exact ⟨(reread_description_iff h).mp hdescription, (reread_script_iff h).mp hscript⟩
  · intro hkept
    have hdescription := (reread_description_iff h).mpr hkept.description
    have hscript := (reread_script_iff h).mpr hkept.script
    rw [reread] at hdescription hscript
    simp only [plain, reread, hdescription, hscript]

end Request

namespace Document

theorem reread_plain_iff {d : Document} (h : d.Legible) : d.reread.plain = d.plain ↔ ∀ r ∈ d.requests, r.Kept := by
  have hrequests : d.reread.plain = d.plain ↔
      d.requests.map (fun r => r.reread.plain) = d.requests.map Request.plain := by
    simp [plain, reread, Function.comp_def]
  rw [hrequests, List.map_inj_left]
  exact forall₂_congr fun r hr => Request.reread_plain_iff (h.requests r hr)

/-- Where every argument that is printed bare is read back and no division sign becomes the beginning of a
comment, the canonical text of a document that was read is read again. The document comes back as it was exactly
if its requests keep their descriptions and scripts, and then it has the same canonical text. -/
theorem parse_written_iff {text : String} {source : Option String} {d : Document} (h : parse text source = .ok d)
    (hbare : d.ReadsBare) (hcalm : Calm d.lexemes []) :
    ∃ d', parse d.written source = .ok d' ∧ (d'.plain = d.plain ↔ ∀ r ∈ d.requests, r.Kept) ∧
      (d'.plain = d.plain → d'.written = d.written) := by
  have hlegible := legible_parse h
  obtain ⟨d', hparse, hplain⟩ := parse_written hlegible hbare hcalm source
  refine ⟨d', hparse, ?_, fun hsame => ?_⟩
  · rw [hplain, reread_plain_iff hlegible]
  · rw [← written_plain, hsame, written_plain]

theorem parse_written_iff_division :
    ∃ d, parse "// a\nPOST \"u\" json([6 / 2 /* halves */, 'a\\tb'])" none = .ok d ∧ d.ReadsBare ∧
      Calm d.lexemes [] ∧ ∃ d', parse d.written none = .ok d' ∧
        (d'.plain = d.plain ↔ ∀ r ∈ d.requests, r.Kept) ∧ (d'.plain = d.plain → d'.written = d.written) := by
  obtain ⟨d, hparse, hd⟩ : ∃ d, parse "// a\nPOST \"u\" json([6 / 2 /* halves */, 'a\\tb'])" none = .ok d ∧
      (d.vars.isEmpty && decide (Calm d.lexemes [])) = true := exists_ok_of_map (by decide +kernel)
  rw [Bool.and_eq_true, decide_eq_true_eq] at hd
  have hbare : d.ReadsBare := by simp [ReadsBare, List.isEmpty_iff.mp hd.1]
  exact ⟨d, hparse, hbare, hd.2, parse_written_iff hparse hbare hd.2⟩

end Document
end RequestLang

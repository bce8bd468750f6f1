import Mathlib
import RequestLang.Proofs.Compile.Merge
import RequestLang.Proofs.Text.Search

/-! The origin of an address, which is its scheme and the authority up to the path, the query or the
fragment. Joining never changes it, however many addresses are joined. -/
namespace RequestLang

namespace Address

/-- The path, the query and the fragment of an address begin with these. -/
def isEdge (c : Char) : Bool := c == '/' || c == '?' || c == '#'

structure Origin where
  scheme : List Char
  authority : List Char
  known : scheme ∈ schemes
  nonempty : authority ≠ []
  plain : ∀ c ∈ authority, isEdge c = false

namespace Origin

def chars (o : Origin) : List Char := o.scheme ++ o.authority

/-- The origin stands at the head of an address, and neither its scheme nor its authority goes on. -/
def Heads (o : Origin) (address : List Char) : Prop := ∃ rest, address = o.chars ++ rest ∧ ∀ c ∈ rest.head?, isEdge c

variable {o : Origin} {base next rest : List Char}

theorem hasScheme_of_heads (h : o.Heads base) : hasScheme base := by
  obtain ⟨rest, rfl, -⟩ := h
  refine List.any_eq_true.mpr ⟨o.scheme, o.known, List.isPrefixOf_iff_prefix.mpr ?_⟩
  rw [chars, List.append_assoc]
  exact List.prefix_append _ _

theorem heads_append {before : List Char} (hbefore : before <+: rest) (hrest : ∀ c ∈ rest.head?, isEdge c)
    (hnext : ∀ c ∈ next.head?, isEdge c) : o.Heads (o.chars ++ (before ++ next)) := by
  refine ⟨before ++ next, rfl, ?_⟩
  cases before with
  | nil => exact hnext
  | cons c cs =>
    obtain ⟨tail, rfl⟩ := hbefore
    exact hrest

/-- The path or the query of an address begins behind its origin. -/
theorem pathStart_chars (o : Origin) (rest : List Char) :
    pathStart (o.chars ++ rest) = o.chars.length + (rest.takeWhile fun c => c != '/' && c != '?').length := by
  have hschemes : ∀ s ∈ schemes, Text.through? [':', '/', '/'] s = some s.length := by decide
  have hmark := Text.through?_append (hschemes o.scheme o.known) (o.authority ++ rest)
  have hplain : ∀ c ∈ o.authority, (c != '/' && c != '?') = true := by
    intro c hc
    have := o.plain c hc
    simp only [isEdge, Bool.or_eq_false_iff, beq_eq_false_iff_ne] at this
    simp [this]
  rw [← List.append_assoc] at hmark
  rw [pathStart, chars, hmark, Option.getD_some, List.append_assoc, List.drop_left,
    List.takeWhile_append_of_pos hplain, List.length_append, List.length_append, Nat.add_assoc]

/-- Slashes are taken off behind the origin only. -/
theorem withoutTrailing_chars (o : Origin) (rest : List Char) :
    withoutTrailing '/' (o.chars ++ rest) = o.chars ++ withoutTrailing '/' rest := by
  have hkept : o.chars.reverse.dropWhile (· == '/') = o.chars.reverse := by
    obtain ⟨cs, c, hauthority⟩ := (List.eq_nil_or_concat o.authority).resolve_left o.nonempty
    have hc : c ≠ '/' := by
      rintro rfl
      exact absurd (o.plain '/' (by simp [hauthority])) (by decide)
    simp [chars, hauthority, hc]
  unfold withoutTrailing
  rw [List.reverse_append, List.dropWhile_append]
  split
  · rename_i hall
    rw [hkept, List.isEmpty_iff.mp hall]
    simp
  · simp

theorem withoutTrailing_isPrefix (mark : Char) (cs : List Char) : withoutTrailing mark cs <+: cs :=
  List.rdropWhile_prefix _ cs

/-- What has no scheme is joined behind the origin. -/
theorem heads_joinChars (h : o.Heads base) (hnext : hasScheme next = false) : o.Heads (joinChars base next) := by
  obtain ⟨rest, rfl, hrest⟩ := h
  have hchars : (o.chars ++ rest).isEmpty = false := by
    cases hempty : o.chars ++ rest with
    | nil => exact absurd (List.append_eq_nil_iff.mp (List.append_eq_nil_iff.mp hempty).1).2 o.nonempty
    | cons => rfl
  rw [joinChars, hchars, hnext]
  simp only [Bool.or_false, Bool.false_eq_true, if_false]
  split
  · exact ⟨rest, rfl, hrest⟩
  · split
    · rename_i hslashes
      rw [Bool.and_eq_true, beq_iff_eq, beq_iff_eq] at hslashes
      have htake : (o.chars ++ rest).take (pathStart (o.chars ++ rest)) =
          o.chars ++ rest.takeWhile fun c => c != '/' && c != '?' := by
        rw [pathStart_chars, List.take_length_add_append]
        congr 1
        exact (List.prefix_iff_eq_take.mp (List.takeWhile_prefix _)).symm
      rw [htake, List.append_assoc]
      exact heads_append (List.takeWhile_prefix _) hrest (by simp [hslashes.1, isEdge])
    · rw [withoutTrailing_chars, List.append_assoc]
      exact heads_append (withoutTrailing_isPrefix '/' rest) hrest (by simp [isEdge])

theorem heads_join {base next : String} (h : o.Heads base.toList) (hnext : isAbsolute next = false) :
    o.Heads (join base next).toList := by
  rw [join, String.toList_ofList]
  exact heads_joinChars h hnext

theorem heads_foldl_join {base : String} {segments : List String} (h : o.Heads base.toList)
    (hsegments : ∀ s ∈ segments, isAbsolute s = false) : o.Heads (segments.foldl join base).toList := by
  induction segments generalizing base with
  | nil => exact h
  | cons s segments ih =>
    have hjoined := heads_join h (hsegments s List.mem_cons_self)
    exact ih hjoined fun t ht => hsegments t (List.mem_cons_of_mem s ht)

end Origin

theorem join_of_isAbsolute (base : String) {next : String} (h : isAbsolute next) : join base next = next := by
  have hscheme : hasScheme next.toList := h
  simp [join, joinChars, hscheme]

end Address

namespace Compile
open Resolve

theorem url_eq (chain : Chain) :
    url chain = do
      let segments ← chain.reverse.mapM fun q => expand q.url
      return Address.withScheme ((segments.map Text.trim).foldl Address.join "") := by
  have h := foldlM_eq_mapM (fun q : Request => expand q.url) (fun joined s => Address.join joined (Text.trim s))
    chain.reverse ""
  simp only [url, h, bind_assoc, pure_bind, List.foldl_map]

/-- The origin of a request. Whatever is joined to an address, unless it is an address with a scheme of
its own, leaves the origin in its place. So a request goes to the origin of its nearest address with a
scheme, whatever else stands in the addresses of its chain. -/
theorem origin_kept (o : Address.Origin) :
    (∀ base next : String, o.Heads base.toList → Address.isAbsolute next = false →
      o.Heads (Address.join base next).toList) ∧
    ∀ (chain : Chain) (r r' : Resolver) (segments : List String),
      on (chain.reverse.mapM fun q => expand q.url) r = (.ok segments, r') →
      ∀ farther nearest nearer, segments.map Text.trim = farther ++ nearest :: nearer →
        o.Heads nearest.toList → (∀ s ∈ nearer, Address.isAbsolute s = false) →
        ∃ address, on (url chain) r = (.ok address, r') ∧ o.Heads address.toList := by
  refine ⟨fun base next => Address.Origin.heads_join, fun chain r r' segments hrun farther nearest nearer hsplit
    hnearest hnearer => ?_⟩
  have habsolute : Address.isAbsolute nearest := Address.Origin.hasScheme_of_heads hnearest
  have hheads : o.Heads ((segments.map Text.trim).foldl Address.join "").toList := by
    rw [hsplit, List.foldl_append, List.foldl_cons, Address.join_of_isAbsolute _ habsolute]
    exact Address.Origin.heads_foldl_join hnearest hnearer
  have hscheme : Address.isAbsolute ((segments.map Text.trim).foldl Address.join "") :=
    Address.Origin.hasScheme_of_heads hheads
  refine ⟨_, ?_, hheads⟩
  rw [url_eq, on_bind_of_ok hrun, on_pure, Address.withScheme, if_pos hscheme]

/-- Slashes at the ends and another address in the query do not lead away from where the root points. -/
theorem origin_kept_slashes :
    let o : Address.Origin := ⟨"http://".toList, "u:p@h".toList, by decide, by decide, by simp [Address.isEdge]⟩
    let chain : Chain := [{ url := " /z " }, { url := "//x?y=http://e/" }, { url := "http://\x7b\x7bh=u:p@h\x7d\x7d" }]
    let r : Resolver := { surroundings := ⟨fun _ => none, fun _ => none, 0⟩, draws := ⟨id, 0⟩ }
    let run := on (chain.reverse.mapM fun q => expand q.url) r
    let segments := ["http://u:p@h", "//x?y=http://e/", " /z "]
    run = (.ok segments, run.2) ∧ segments.map Text.trim = [] ++ "http://u:p@h" :: ["//x?y=http://e/", "/z"] ∧
      o.Heads "http://u:p@h".toList ∧ (∀ s ∈ ["//x?y=http://e/", "/z"], Address.isAbsolute s = false) ∧
      (on (url chain) r).1.toOption = some "http://u:p@h/z" ∧
      ∃ address, on (url chain) r = (.ok address, run.2) ∧ o.Heads address.toList := by
  intro o chain r run segments
  have hrun : run = (.ok segments, run.2) := by
    have hshown : run.1.toOption.map id = some segments := by decide +kernel
    obtain ⟨found, hfound, rfl⟩ := exists_ok_of_map hshown
    exact Prod.ext hfound rfl
  have hsplit : segments.map Text.trim = [] ++ "http://u:p@h" :: ["//x?y=http://e/", "/z"] := by decide +kernel
  have hheads : o.Heads "http://u:p@h".toList := ⟨[], by decide, nofun⟩
  have hnearer : ∀ s ∈ ["//x?y=http://e/", "/z"], Address.isAbsolute s = false := by decide
  exact ⟨hrun, hsplit, hheads, hnearer, by decide +kernel,
    (origin_kept o).2 chain r run.2 segments hrun [] "http://u:p@h" ["//x?y=http://e/", "/z"] hsplit hheads hnearer⟩

end Compile
end RequestLang

import Mathlib
import Metasyntax.Proofs.HostedProductions
import Metasyntax.Proofs.Inclusion
import Metasyntax.Proofs.Joining
import Metasyntax.Proofs.Scanning

/-!
# The grammar of rule text, read from its own text

RFC 5234 has the grammar of rule text in rule text. Read with the standard grammar, it is
bound as the productions that it spells, and the grammar that these make accepts what the
standard grammar accepts, as long as no text is marked for whether the case of its letters
counts. That mark is what the standard grammar has on top of RFC 5234.
-/

set_option autoImplicit false

namespace Metasyntax

namespace Standard
open Expression

/-- The grammar of rule text as RFC 5234 has it. -/
def publishedText : String := r#"rulelist       =  1*( rule / (*c-wsp c-nl) )
rule           =  rulename defined-as elements c-nl
                       ; continues if next line starts
                       ;  with white space
rulename       =  ALPHA *(ALPHA / DIGIT / "-")
defined-as     =  *c-wsp ("=" / "=/") *c-wsp
                       ; basic rules definition and
                       ;  incremental alternatives
elements       =  alternation *c-wsp
c-wsp          =  WSP / (c-nl WSP)
c-nl           =  comment / CRLF
                       ; comment or newline
comment        =  ";" *(WSP / VCHAR) CRLF
alternation    =  concatenation
                  *(*c-wsp "/" *c-wsp concatenation)
concatenation  =  repetition *(1*c-wsp repetition)
repetition     =  [repeat] element
repeat         =  1*DIGIT / (*DIGIT "*" *DIGIT)
element        =  rulename / group / option /
                  char-val / num-val / prose-val
group          =  "(" *c-wsp alternation *c-wsp ")"
option         =  "[" *c-wsp alternation *c-wsp "]"
char-val       =  DQUOTE *(%x20-21 / %x23-7E) DQUOTE
                       ; quoted string of SP and VCHAR
                       ;  without DQUOTE
num-val        =  "%" (bin-val / dec-val / hex-val)
bin-val        =  "b" 1*BIT
                  [ 1*("." 1*BIT) / ("-" 1*BIT) ]
dec-val        =  "d" 1*DIGIT
                  [ 1*("." 1*DIGIT) / ("-" 1*DIGIT) ]
hex-val        =  "x" 1*HEXDIG
                  [ 1*("." 1*HEXDIG) / ("-" 1*HEXDIG) ]
prose-val      =  "<" *(%x20-3D / %x3F-7E) ">"
"#

def quotation : Expression :=
  .sequence [.name "DQUOTE", star (.choice [range '\x20' '\x21', range '\x23' '\x7E']),
    .name "DQUOTE"]

def numbered (marker digit : String) : Expression :=
  let digits := plus (.name digit)
  .sequence [text marker, digits,
    .optional (.choice [plus (.sequence [text ".", digits]), .sequence [text "-", digits]])]

def published : Ruleset :=
  [("rulelist", plus (.choice [.name "rule", .sequence [star (.name "c-wsp"), .name "c-nl"]])),
   ("rule", .sequence [.name "rulename", .name "defined-as", .name "elements", .name "c-nl"]),
   ("rulename",
     .sequence [.name "ALPHA", star (.choice [.name "ALPHA", .name "DIGIT", text "-"])]),
   ("defined-as",
     .sequence [star (.name "c-wsp"), .choice [text "=", text "=/"], star (.name "c-wsp")]),
   ("elements", .sequence [.name "alternation", star (.name "c-wsp")]),
   ("c-wsp", .choice [.name "WSP", .sequence [.name "c-nl", .name "WSP"]]),
   ("c-nl", .choice [.name "comment", .name "CRLF"]),
   ("comment",
     .sequence [text ";", star (.choice [.name "WSP", .name "VCHAR"]), .name "CRLF"]),
   ("alternation",
     .sequence [.name "concatenation",
       star (.sequence
         [star (.name "c-wsp"), text "/", star (.name "c-wsp"), .name "concatenation"])]),
   ("concatenation",
     .sequence [.name "repetition", star (.sequence [plus (.name "c-wsp"), .name "repetition"])]),
   ("repetition", .sequence [.optional (.name "repeat"), .name "element"]),
   ("repeat",
     .choice [plus (.name "DIGIT"),
       .sequence [star (.name "DIGIT"), text "*", star (.name "DIGIT")]]),
   ("element",
     .choice [.name "rulename", .name "group", .name "option", .name "char-val",
       .name "num-val", .name "prose-val"]),
   ("group", bracketed "(" ")"),
   ("option", bracketed "[" "]"),
   ("char-val", quotation),
   ("num-val",
     .sequence [text "%", .choice [.name "bin-val", .name "dec-val", .name "hex-val"]]),
   ("bin-val", numbered "b" "BIT"),
   ("dec-val", numbered "d" "DIGIT"),
   ("hex-val", numbered "x" "HEXDIG"),
   ("prose-val",
     .sequence [text "<", star (.choice [range '\x20' '\x3D', range '\x3F' '\x7E']), text ">"])]

end Standard

def Ruleset.productions (rules : Ruleset) : List Production :=
  rules.map fun (name, body) => ⟨name, false, body⟩

namespace Standard
open Notation

set_option maxRecDepth 10000 in
theorem published_read (mode : ProseMode) :
    (scanListing 64 64 (asLines (shorn publishedText.toList))).map
      (·.mapM (Rule.production mode)) = some (.ok published.productions) := by
  have htext : publishedText.toList = _ := String.toList_ofList
  rw [htext]
  cbv

theorem published_spelled : ∃ rules, Listing rules (asLines (trimBlankEnd publishedText).toList) ∧
    ∀ mode, rules.mapM (Rule.production mode) = .ok published.productions := by
  obtain ⟨rules, hscan, -⟩ := Option.map_eq_some_iff.1 (published_read .reject)
  refine ⟨rules, ?_, fun mode => ?_⟩
  · rw [toList_trimBlankEnd]
    exact scanListing_sound 64 64 hscan
  · have hread := published_read mode
    rw [hscan, Option.map_some] at hread
    exact Option.some.inj hread

def ownRules : Ruleset := core ++ published

theorem ownRules_ranked : ownRules.ranked level takes = true := by decide +kernel

theorem published_standalone : Production.Standalone core published.productions where
  batch :=
    { plain := fun production hproduction => by
        obtain ⟨rule, -, rfl⟩ := List.mem_map.1 hproduction
        rfl
      distinct := by decide +kernel }
  plain := by decide +kernel
  own := by decide +kernel
  known := by decide +kernel

theorem ruleset_published : Production.ruleset published.productions = published := by
  rw [Production.ruleset, Ruleset.productions, List.map_map]
  exact List.map_id _

/-- What the text says under a name the standard grammar says as well. -/
theorem accepts_of_ownRules {name : String} {cs : List Char}
    (h : Accepts ownRules (.name name) cs) : Accepts rules (.name name) cs := by
  have hinto : ownRules.into rules id ["char-val"] = true := by decide +kernel
  -- Only values of characters are written otherwise: here as a quoted text without a mark.
  refine Ruleset.accepts_of_into hinto (fun _ _ _ => ⟨trivial, trivial⟩) ?_ trivial h
  intro name hname body hlookup cs _ hbody
  obtain rfl := List.mem_singleton.1 hname
  obtain rfl : body = quotation := Option.some.inj (hlookup.symm.trans rfl)
  have hquoted : Accepts rules (.name "quoted-string") cs := (accepts_name_iff rfl).2 hbody
  obtain ⟨text, htext, rfl⟩ := accepts_quoted_iff.1 hquoted
  exact @Quotation.accepts _ .plain text ⟨htext, [], rfl, rfl⟩

end Standard

def Unmarked (cs : List Char) : Prop := ∀ mark ∈ ['s', 'S', 'i', 'I'], ¬ ['%', mark] <:+: cs

instance : DecidablePred Unmarked := fun cs =>
  inferInstanceAs (Decidable (∀ mark ∈ ['s', 'S', 'i', 'I'], ¬ ['%', mark] <:+: cs))

theorem Unmarked.append {xs ys : List Char} (h : Unmarked (xs ++ ys)) :
    Unmarked xs ∧ Unmarked ys :=
  ⟨fun mark hmark hxs => h mark hmark (hxs.trans (List.prefix_append xs ys).isInfix),
    fun mark hmark hys => h mark hmark (hys.trans (List.suffix_append xs ys).isInfix)⟩

theorem Unmarked.not_accepts {rules : Ruleset} {pattern : String} {e : Char}
    (hpattern : pattern.toList = ['%', e]) (he : e = 's' ∨ e = 'i') {cs : List Char}
    (h : Unmarked cs) : ¬ Accepts rules (.text pattern) cs := by
  have hletter : e.toNat < 0x80 ∧ e.toLower ≠ 'k' := by rcases he with rfl | rfl <;> decide
  intro haccepts
  obtain ⟨c, hc, rfl⟩ := (accepts_marked_iff '%' e hpattern (by decide) hletter).1 haccepts
  refine h c ?_ (List.infix_refl _)
  rcases he with rfl | rfl <;> rcases hc with rfl | rfl <;> decide

namespace Standard

def publishedName : String → String
  | "quoted-string" | "case-insensitive-string" | "case-sensitive-string" => "char-val"
  | name => name

/-- What the standard grammar says without marks the text says as well. -/
theorem accepts_ownRules {name : String} {cs : List Char} (hcs : Unmarked cs)
    (h : Accepts rules (.name name) cs) : Accepts ownRules (.name (publishedName name)) cs := by
  have hinto : rules.into ownRules publishedName
      ["char-val", "case-insensitive-string", "case-sensitive-string"] = true := by decide +kernel
  refine Ruleset.accepts_of_into hinto (fun _ _ => Unmarked.append) ?_ hcs h
  intro name hname body hlookup cs hcs hbody
  simp only [List.mem_cons, List.not_mem_nil, or_false] at hname
  obtain rfl | rfl | rfl := hname
  · obtain rfl : body = .choice [.name "case-insensitive-string", .name "case-sensitive-string"] :=
      Option.some.inj (hlookup.symm.trans rfl)
    obtain ⟨branch, hbranch, haccepts⟩ := accepts_choice_iff.1 hbody
    obtain rfl : branch = .name "char-val" := by
      simpa [Expression.substAll, Expression.subst, publishedName] using hbranch
    exact haccepts
  · obtain rfl : body = .sequence [.optional (.text "%i"), .name "quoted-string"] :=
      Option.some.inj (hlookup.symm.trans rfl)
    obtain ⟨xs, ys, rfl, hmark, hquoted⟩ := accepts_cons_iff.1 hbody
    rcases accepts_optional_iff.1 hmark with rfl | hmark
    · exact accepts_last_iff.1 hquoted
    · exact absurd hmark (hcs.append.1.not_accepts rfl (Or.inr rfl))
  · obtain rfl : body = .sequence [.text "%s", .name "quoted-string"] :=
      Option.some.inj (hlookup.symm.trans rfl)
    obtain ⟨xs, ys, rfl, hmark, -⟩ := accepts_cons_iff.1 hbody
    exact absurd hmark (hcs.append.1.not_accepts rfl (Or.inl rfl))

end Standard

/-- The grammar of rule text can be loaded from its own text. As long as the grammar that it makes
and the standard grammars are left alone, it accepts no list of rules that the standard grammar
does not accept, and it accepts all those without marks for whether case counts. What is not
accepted fails to parse. -/
theorem Desk.Untouched.hosts_itself {desk : Desk} (h : desk.Untouched) (name : String)
    (prose : ProseMode) (cacheSize : Capacity) :
    ∃ id built, (Loading.newGrammar name ⟨false, prose, cacheSize⟩
        (Loading.loadRulelist · Standard.publishedText) []).run desk.store = (.ok id, built) ∧
      ∀ later : Desk, Desk.Spares (insert id Standard.grammars) ⟨built, desk.held⟩ later →
        ∀ text, ∃ own standard, later.store.parsed id "rulelist" text = .ok own ∧
          later.store.parsed .abnf "rulelist" text = .ok standard ∧
          (own.isOk = true → standard.isOk = true) ∧
          (Unmarked text.toList → (own.isOk = true ↔ standard.isOk = true)) := by
  obtain ⟨rules, hrules, hproductions⟩ := Standard.published_spelled
  have hread : rules.mapM (·.production (Options.mk false prose cacheSize).prose) =
      .ok Standard.published.productions := hproductions prose
  obtain ⟨id, built, hbuilt, hhosting⟩ :=
    h.hosts_listing name rfl hrules hread Standard.published_standalone
  refine ⟨id, built, hbuilt, fun later hspares text => ?_⟩
  have hranked : Ruleset.ranked
      (Standard.core ++ Production.ruleset Standard.published.productions) Standard.level
        Standard.takes = true := by
    rw [Standard.ruleset_published]
    exact Standard.ownRules_ranked
  obtain ⟨own, hown, haccepts⟩ := hhosting.parsed_ends hspares hranked List.mem_cons_self text
  obtain ⟨standard, hstandard, haccepts'⟩ := hhosting.parsed_standard hspares
    (show "rulelist" ∈ RuleText.entries by decide) text
  rw [Standard.ruleset_published] at haccepts
  have hsub : own.isOk = true → standard.isOk = true := fun hok =>
    haccepts'.2 (Standard.accepts_of_ownRules (haccepts.1 hok))
  exact ⟨own, standard, hown, hstandard, hsub, fun hunmarked => ⟨hsub, fun hok =>
    haccepts.2 (Standard.accepts_ownRules hunmarked (haccepts'.1 hok))⟩⟩

/-- One rule that refers to another. -/
theorem Desk.hosts_itself_reference : Desk.Untouched ⟨.standard, ∅⟩ ∧ Unmarked "a=b\r\n".toList ∧
    ∃ id built, (Loading.newGrammar "rfc5234" .standard
        (Loading.loadRulelist · Standard.publishedText) []).run .standard = (.ok id, built) ∧
      ∃ own standard, built.parsed id "rulelist" "a=b\r\n" = .ok own ∧
        built.parsed .abnf "rulelist" "a=b\r\n" = .ok standard ∧
        (own.isOk = true ↔ standard.isOk = true) := by
  have hunmarked : Unmarked "a=b\r\n".toList := by decide
  obtain ⟨id, built, hbuilt, hall⟩ := Desk.Untouched.standard.hosts_itself "rfc5234" .reject
    Options.standard.cacheSize
  obtain ⟨own, standard, hown, hstandard, -, hiff⟩ := hall _ .refl "a=b\r\n"
  exact ⟨.standard, hunmarked, id, built, hbuilt, own, standard, hown, hstandard, hiff hunmarked⟩

end Metasyntax

import UtilityCss.Text.Cut

namespace UtilityCss

structure Candidate where
  identifier : String
  token : Option String
  negative : Bool
  deriving DecidableEq, Repr

def Candidate.ofBase (base : String) : Candidate :=
  let (negative, name) := match Text.after? ['-'] base.toList with
    | some rest => (true, String.ofList rest)
    | none => (false, base)
  match Text.cutAt '-' name with
  | some (identifier, token) => ⟨identifier, some token, negative⟩
  | none => ⟨name, none, negative⟩

/-- The families of class names. -/
inductive Utility where
  | boxSizing | display | float | clearfix | clear | object | overflow | scrolling | overscroll
  | position | inset | visibility | zIndex | space | flex | alignItems | alignContent | alignSelf
  | justify | order | grid | gridColumn | gridRow | gap | padding | margin | height | width
  | minSize | maxSize | background | text | font | italic | negated | textTransform | normalCase
  | underline | line | noDecoration | leading | tracking | whitespace | wordBreak | truncate
  | antialiased | subpixel | list | screenReader | placeholder | border | rounded | divide | shadow
  | opacity | transform | origin | scale | rotate | translate | skew | transition | duration | delay
  | ease | cursor | select | pointer | resize | appearance | outline
  deriving DecidableEq, Repr

namespace Utility

/-- The identifiers, each with its family. -/
def identifiers : List (String × Utility) :=
  [("box", boxSizing),
   ("block", display), ("inline", display), ("table", display), ("flow", display),
   ("contents", display), ("hidden", display),
   ("float", float), ("clearfix", clearfix), ("clear", clear), ("object", object),
   ("overflow", overflow), ("scrolling", scrolling), ("overscroll", overscroll),
   ("static", position), ("fixed", position), ("absolute", position), ("relative", position),
   ("sticky", position),
   ("inset", inset), ("top", inset), ("right", inset), ("bottom", inset), ("left", inset),
   ("visible", visibility), ("invisible", visibility),
   ("z", zIndex), ("space", space), ("flex", flex), ("items", alignItems), ("content", alignContent),
   ("self", alignSelf), ("justify", justify), ("order", order), ("grid", grid), ("col", gridColumn),
   ("row", gridRow), ("gap", gap),
   ("p", padding), ("px", padding), ("py", padding), ("pt", padding), ("pr", padding),
   ("pb", padding), ("pl", padding),
   ("m", margin), ("mx", margin), ("my", margin), ("mt", margin), ("mr", margin), ("mb", margin),
   ("ml", margin),
   ("h", height), ("w", width), ("min", minSize), ("max", maxSize), ("bg", background),
   ("text", text), ("font", font), ("italic", italic), ("not", negated),
   ("uppercase", textTransform), ("lowercase", textTransform), ("capitalize", textTransform),
   ("normal", normalCase), ("underline", underline), ("line", line), ("no", noDecoration),
   ("leading", leading), ("tracking", tracking), ("whitespace", whitespace), ("break", wordBreak),
   ("truncate", truncate), ("antialiased", antialiased), ("subpixel", subpixel), ("list", list),
   ("sr", screenReader), ("placeholder", placeholder), ("border", border), ("rounded", rounded),
   ("divide", divide), ("shadow", shadow), ("opacity", opacity), ("transform", transform),
   ("origin", origin), ("scale", scale), ("rotate", rotate), ("translate", translate), ("skew", skew),
   ("transition", transition), ("duration", duration), ("delay", delay), ("ease", ease),
   ("cursor", cursor), ("select", select), ("pointer", pointer), ("resize", resize),
   ("appearance", appearance), ("outline", outline)]

def ofIdentifier? (identifier : String) : Option Utility := identifiers.lookup identifier

end Utility
end UtilityCss

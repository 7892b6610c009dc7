import UtilityCss.Keyword.Box

namespace UtilityCss.Palette

def shades : List String := ["100", "200", "300", "400", "500", "600", "700", "800", "900"]

/-- The shades of each family, lightest first. -/
def families : List (String × List String) :=
  [("gray", ["#f7fafc", "#edf2f7", "#e2e8f0", "#cbd5e0", "#a0aec0", "#718096", "#4a5568", "#2d3748",
    "#1a202c"]),
   ("red", ["#fff5f5", "#fed7d7", "#feb2b2", "#fc8181", "#f56565", "#e53e3e", "#c53030", "#9b2c2c",
    "#742a2a"]),
   ("orange", ["#fffaf0", "#feebc8", "#fbd38d", "#f6ad55", "#ed8936", "#dd6b20", "#c05621", "#9c4221",
    "#7b341e"]),
   ("yellow", ["#fffff0", "#fefcbf", "#faf089", "#f6e05e", "#ecc94b", "#d69e2e", "#b7791f", "#975a16",
    "#744210"]),
   ("green", ["#f0fff4", "#c6f6d5", "#9ae6b4", "#68d391", "#48bb78", "#38a169", "#2f855a", "#276749",
    "#22543d"]),
   ("teal", ["#e6fffa", "#b2f5ea", "#81e6d9", "#4fd1c5", "#38b2ac", "#319795", "#2c7a7b", "#285e61",
    "#234e52"]),
   ("blue", ["#ebf8ff", "#bee3f8", "#90cdf4", "#63b3ed", "#4299e1", "#3182ce", "#2b6cb0", "#2c5282",
    "#2a4365"]),
   ("indigo", ["#ebf4ff", "#c3dafe", "#a3bffa", "#7f9cf5", "#667eea", "#5a67d8", "#4c51bf", "#434190",
    "#3c366b"]),
   ("purple", ["#faf5ff", "#e9d8fd", "#d6bcfa", "#b794f4", "#9f7aea", "#805ad5", "#6b46c1", "#553c9a",
    "#44337a"]),
   ("pink", ["#fff5f7", "#fed7e2", "#fbb6ce", "#f687b3", "#ed64a6", "#d53f8c", "#b83280", "#97266d",
    "#702459"])]

def keywords : List (String × String) :=
  [("transparent", "transparent"), ("current", "currentColor"), ("black", "#000"), ("white", "#fff")]

/-- Every colour name with its value; a shade is named after its family, as in `red-500`. -/
def colors : List (String × String) :=
  keywords ++ families.flatMap fun (family, hexes) =>
    (shades.zip hexes).map fun (shade, hex) => (family ++ "-" ++ shade, hex)

def color? (name : String) : Option String := colors.lookup name

end UtilityCss.Palette

namespace UtilityCss.Keyword

def fonts : List Entry :=
  values "text" "font-size"
    [("xs", "0.75rem"), ("sm", "0.875rem"), ("base", "1rem"), ("lg", "1.125rem"), ("xl", "1.25rem"),
     ("2xl", "1.5rem"), ("3xl", "1.875rem"), ("4xl", "2.25rem"), ("5xl", "3rem"), ("6xl", "4rem")] ++
  values "font" "font-weight"
    [("hairline", "100"), ("thin", "200"), ("light", "300"), ("normal", "400"), ("medium", "500"),
     ("semibold", "600"), ("bold", "700"), ("extrabold", "800"), ("black", "900")] ++
  values "font" "font-family"
    [("sans", "system-ui, -apple-system, BlinkMacSystemFont, \"Segoe UI\", Roboto, \"Helvetica Neue\", Arial, \"Noto Sans\", sans-serif, \"Apple Color Emoji\", \"Segoe UI Emoji\", \"Segoe UI Symbol\", \"Noto Color Emoji\""),
     ("serif", "Georgia, Cambria, \"Times New Roman\", Times, serif"),
     ("mono", "Menlo, Monaco, Consolas, \"Liberation Mono\", \"Courier New\", monospace")] ++
  [alone "italic" (.set "font-style" "italic"),
   entry "not" "italic" (.set "font-style" "normal"),
   alone "antialiased" (.of
     [("-webkit-font-smoothing", "antialiased"), ("-moz-osx-font-smoothing", "grayscale")] .element),
   entry "subpixel" "antialiased" (.of
     [("-webkit-font-smoothing", "auto"), ("-moz-osx-font-smoothing", "auto")] .element)]

def lettering : List Entry :=
  (["uppercase", "lowercase", "capitalize"].map fun name => alone name (.set "text-transform" name)) ++
  [entry "normal" "case" (.set "text-transform" "none"),
   alone "underline" (.set "text-decoration" "underline"),
   entry "line" "through" (.set "text-decoration" "line-through"),
   entry "no" "underline" (.set "text-decoration" "none")] ++
  values "tracking" "letter-spacing"
    [("tighter", "-0.05em"), ("tight", "-0.025em"), ("normal", "0"), ("wide", "0.025em"),
     ("wider", "0.05em"), ("widest", "0.1em")]

def lines : List Entry :=
  verbatim "text" "text-align" ["left", "center", "right", "justify"] ++
  values "leading" "line-height"
    [("none", "1"), ("tight", "1.25"), ("snug", "1.375"), ("normal", "1.5"), ("relaxed", "1.625"),
     ("loose", "2")] ++
  values "whitespace" "white-space"
    [("normal", "normal"), ("no-wrap", "nowrap"), ("pre", "pre"), ("pre-line", "pre-line"),
     ("pre-wrap", "pre-wrap")] ++
  [entry "break" "normal" (.of [("word-break", "normal"), ("overflow-wrap", "normal")] .element),
   entry "break" "words" (.set "overflow-wrap" "break-word"),
   entry "break" "all" (.set "word-break" "break-all"),
   alone "truncate" (.of
     [("overflow", "hidden"), ("text-overflow", "ellipsis"), ("white-space", "nowrap")] .element)] ++
  verbatim "list" "list-style-type" ["none", "disc", "decimal"] ++
  verbatim "list" "list-style-position" ["inside", "outside"]

def screenReaders : List Entry :=
  [entry "sr" "only" (.of
     [("position", "absolute"), ("width", "1px"), ("height", "1px"), ("padding", "0"),
      ("margin", "-1px"), ("overflow", "hidden"), ("clip", "rect(0, 0, 0, 0)"),
      ("white-space", "nowrap"), ("border-width", "0")] .element),
   entry "not" "sr-only" (.of
     [("position", "static"), ("width", "auto"), ("height", "auto"), ("padding", "0"),
      ("margin", "0"), ("overflow", "visible"), ("clip", "auto"), ("white-space", "normal")] .element)]

def colored : List Entry :=
  values "bg" "background-color" Palette.colors ++
  values "text" "color" Palette.colors ++
  values "border" "border-color" Palette.colors ++
  (Palette.colors.map fun (name, color) =>
    entry "placeholder" name (.of [("color", color)] .placeholder)) ++
  Palette.colors.map fun (name, color) =>
    entry "divide" name (.of [("border-color", color)] .siblings)

def backgrounds : List Entry :=
  verbatim "bg" "background-attachment" ["fixed", "local", "scroll"] ++
  verbatim "bg" "background-size" ["auto", "cover", "contain"] ++
  verbatimSpaced "bg" "background-position"
    ["bottom", "center", "left", "left-bottom", "left-top", "right", "right-bottom", "right-top",
     "top"] ++
  values "bg" "background-repeat"
    [("repeat", "repeat"), ("no-repeat", "no-repeat"), ("repeat-x", "repeat-x"),
     ("repeat-y", "repeat-y"), ("repeat-round", "round"), ("repeat-space", "space")]

/-- The widths of a border, by token. -/
def borderWidths : List (String × String) := [("0", "0"), ("2", "2px"), ("4", "4px"), ("8", "8px")]

def borderSides : List (String × String) :=
  [("t", "border-top-width"), ("r", "border-right-width"), ("b", "border-bottom-width"),
   ("l", "border-left-width")]

def borderStyles : List String := ["solid", "dashed", "dotted", "double", "none"]

def collapses : List String := ["collapse", "separate"]

def borders : List Entry :=
  alone "border" (.set "border-width" "1px") :: values "border" "border-width" borderWidths ++
  (borderSides.flatMap fun (side, property) =>
    values "border" property [(side, "1px")] ++
    behind "border" (side ++ "-") property borderWidths) ++
  verbatim "border" "border-style" borderStyles ++
  verbatim "border" "border-collapse" collapses

def radii : List (String × String) :=
  [("none", "0"), ("sm", "0.125rem"), ("md", "0.375rem"), ("lg", "0.5rem"), ("full", "9999px")]

/-- The corners on each side, clockwise but for the left one, which starts at the top. -/
def corners : List (String × List String) :=
  [("t", ["top-left", "top-right"]), ("r", ["top-right", "bottom-right"]),
   ("b", ["bottom-right", "bottom-left"]), ("l", ["top-left", "bottom-left"]),
   ("tl", ["top-left"]), ("tr", ["top-right"]), ("br", ["bottom-right"]), ("bl", ["bottom-left"])]

def rounding : List Entry :=
  alone "rounded" (.set "border-radius" "0.25rem") :: values "rounded" "border-radius" radii ++
  corners.flatMap fun (side, names) =>
    let properties := names.map fun corner => "border-" ++ corner ++ "-radius"
    entry "rounded" side (.setAll properties "0.25rem") ::
      radii.map fun (size, radius) =>
        entry "rounded" (side ++ "-" ++ size) (.setAll properties radius)

/-- One value spread over the two sides of an axis between siblings: all of it on the leading side,
or all of it on the trailing one where the `reverse` property is set. -/
def betweenSiblings (reverse leading trailing value : String) (leadingFirst : Bool) : Styling :=
  let lead := (leading, "calc(" ++ value ++ " * calc(1 - var(" ++ reverse ++ ")))")
  let trail := (trailing, "calc(" ++ value ++ " * var(" ++ reverse ++ "))")
  .of ((reverse, "0") :: if leadingFirst then [lead, trail] else [trail, lead]) .siblings

def dividers : List Entry :=
  [("x", "border-left-width", "border-right-width"),
   ("y", "border-top-width", "border-bottom-width")].flatMap fun (axis, leading, trailing) =>
    let reverse := "--divide-" ++ axis ++ "-reverse"
    let between := fun width => betweenSiblings reverse leading trailing width (axis == "y")
    entry "divide" axis (between "1px") ::
      entry "divide" (axis ++ "-reverse") (.of [(reverse, "1")] .siblings) ::
      ["0", "2", "4", "8"].map fun width =>
        entry "divide" (axis ++ "-" ++ width) (between (width ++ "px"))

def shadows : List Entry :=
  alone "shadow"
    (.set "box-shadow" "0 1px 3px 0 rgba(0, 0, 0, 0.1), 0 1px 2px 0 rgba(0, 0, 0, 0.06)") ::
  values "shadow" "box-shadow"
    [("sm", "0 1px 2px 0 rgba(0, 0, 0, 0.05)"),
     ("md", "0 4px 6px -1px rgba(0, 0, 0, 0.1), 0 2px 4px -1px rgba(0, 0, 0, 0.06)"),
     ("lg", "0 10px 15px -3px rgba(0, 0, 0, 0.1), 0 4px 6px -2px rgba(0, 0, 0, 0.05)"),
     ("xl", "0 20px 25px -5px rgba(0, 0, 0, 0.1), 0 10px 10px -5px rgba(0, 0, 0, 0.04)"),
     ("2xl", "0 25px 50px -12px rgba(0, 0, 0, 0.25)"),
     ("inner", "inset 0 2px 4px 0 rgba(0, 0, 0, 0.06)"),
     ("outline", "0 0 0 3px rgba(66, 153, 225, 0.5)"),
     ("none", "none")]

def translateX : String := "--transform-translate--x"
def translateY : String := "--transform-translate--y"
def rotate : String := "--transform-rotate"
def skewX : String := "--transform-skew--x"
def skewY : String := "--transform-skew--y"
def scaleX : String := "--transform-scale-x"
def scaleY : String := "--transform-scale-y"

def transforms : List Entry :=
  let call := fun function property => function ++ "(var(" ++ property ++ "))"
  [alone "transform" (.of
     [(translateX, "0"), (translateY, "0"), (rotate, "0"), (skewX, "0"), (skewY, "0"),
      (scaleX, "1"), (scaleY, "1"),
      ("transform", " ".intercalate
        [call "translateX" translateX, call "translateY" translateY, call "rotate" rotate,
         call "skewX" skewX, call "skewY" skewY, call "scaleX" scaleX, call "scaleY" scaleY])]
     .element)] ++
  verbatim "transform" "transform" ["none"] ++
  verbatimSpaced "origin" "transform-origin"
    ["center", "top", "top-right", "right", "bottom-right", "bottom", "bottom-left", "left",
     "top-left"]

def transitions : List Entry :=
  alone "transition" (.set "transition-property"
    "background-color, border-color, color, fill, stroke, opacity, box-shadow, transform") ::
  values "transition" "transition-property"
    [("none", "none"), ("all", "all"),
     ("colors", "background-color, border-color, color, fill, stroke"), ("opacity", "opacity"),
     ("shadow", "box-shadow"), ("transform", "transform")] ++
  values "ease" "transition-timing-function"
    [("linear", "linear"), ("in", "cubic-bezier(0.4, 0, 1, 1)"),
     ("out", "cubic-bezier(0, 0, 0.2, 1)"), ("in-out", "cubic-bezier(0.4, 0, 0.2, 1)")]

def pointing : List Entry :=
  verbatim "cursor" "cursor" ["auto", "default", "pointer", "wait", "text", "move", "not-allowed"] ++
  verbatim "select" "user-select" ["none", "text", "all", "auto"] ++
  values "pointer" "pointer-events" [("events-none", "none"), ("events-auto", "auto")] ++
  alone "resize" (.set "resize" "both") ::
  values "resize" "resize" [("none", "none"), ("y", "vertical"), ("x", "horizontal")] ++
  values "appearance" "appearance" [("none", "none")] ++
  values "outline" "outline" [("none", "0")]

end UtilityCss.Keyword

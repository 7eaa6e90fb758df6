/-
The default theme.
-/
import AtomicCss.Theme.Table

namespace AtomicCss.Theme

/-- The tokens of every category before any configuration. -/
def defaults : SortedMap Category Tokens :=
  SortedMap.ofList <| [
    (.scale,
      [("0", "0"), ("50", ".5"), ("75", ".75"), ("90", ".9"), ("95", ".95"), ("100", "1"),
        ("105", "1.05"), ("110", "1.1"), ("125", "1.25"), ("150", "1.5")]),
    (.flex,
      [("1", "1 1 0%"), ("auto", "1 1 auto"), ("initial", "0 1 auto"), ("none", "none")]),
    (.transitionDuration,
      [("DEFAULT", "150ms"), ("75", "75ms"), ("100", "100ms"), ("150", "150ms"),
        ("200", "200ms"), ("300", "300ms"), ("500", "500ms"), ("700", "700ms"),
        ("1000", "1000ms")]),
    (.transitionProperty,
      [("DEFAULT",
          "background-color, border-color, color, fill, stroke, opacity, box-shadow, transform"),
        ("none", "none"), ("all", "all"),
        ("colors", "background-color, border-color, color, fill, stroke"),
        ("opacity", "opacity"), ("shadow", "box-shadow"), ("transform", "transform")]),
    (.transitionDelay,
      [("75", "75ms"), ("100", "100ms"), ("150", "150ms"), ("200", "200ms"),
        ("300", "300ms"), ("500", "500ms"), ("700", "700ms"), ("1000", "1000ms")]),
    (.opacity,
      [("0", "0"), ("5", "0.05"), ("10", "0.1"), ("20", "0.2"), ("25", "0.25"),
        ("30", "0.3"), ("40", "0.4"), ("50", "0.5"), ("60", "0.6"), ("70", "0.7"),
        ("75", "0.75"), ("80", "0.8"), ("90", "0.9"), ("95", "0.95"), ("100", "1")]),
    (.zIndex,
      [("auto", "auto"), ("0", "0"), ("10", "10"), ("20", "20"), ("30", "30"),
        ("40", "40"), ("50", "50")]),
    (.screens,
      [("sm", "640px"), ("md", "768px"), ("lg", "1024px"), ("xl", "1280px"),
        ("2xl", "1536px")])
  ].map fun (category, tokens) => (category, SortedMap.ofList tokens)

end AtomicCss.Theme

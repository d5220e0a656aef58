import RawViews.Basic
import RawViews.Index
import RawViews.SplitAt
import RawViews.SplitComplex
import RawViews.Valid
import RawViews.Aliasing
import RawViews.Construct
import RawViews.Compose
